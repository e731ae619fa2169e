import TickForge.Lib.Simulation
import TickForge.IngestionPipeline.Sequence
import TickForge.IngestionPipeline.Shutdown
import TickForge.LiveSource.Reconnect

/-! The pipeline with a `LiveSource` behind its source pointer, call for call. -/
namespace TickForge.LiveIngestion

open ByteString Transition
open IngestionPipeline (Source Config Call Thread IngestPC OneStart Flow)

/-- What the two constructors are given. -/
structure Setup where
  capacity : ℕ
  publishReturns : ℕ → Bool
  recorder : Bool
  live : LiveSourceConfig
  parse : Bytes → Option MarketEvent

/-- All that the pipeline relies on: a call made after `stop()` yields no event, and only
`stop()` makes a call return false. -/
def contract : Source MarketEvent where
  mayReturn _ late now r := (r.isSome = true → late = false) ∧ (r = none → late || now)
  clearsOnStart := true

def Setup.pipeline (cfg : Setup) : Config MarketEvent :=
  ⟨cfg.capacity, contract, cfg.publishReturns, cfg.recorder⟩

structure State where
  pipeline : IngestionPipeline.State MarketEvent
  live : LiveSource.State

def initial (cfg : Setup) (script : List Call) : State :=
  ⟨IngestionPipeline.initial cfg.pipeline script, LiveSource.initial⟩

/-- The thread is at a call of the source, or inside one. -/
def callsSource (p : IngestionPipeline.State MarketEvent) : Thread → Bool
  | .owner =>
    match p.owner, p.script with
    | .idle, .start :: _ => true
    | .idle, .requestStop :: _ => p.started
    | _, _ => false
  | .ingest =>
    match p.ingest with
    | .atNext | .inNext _ => true
    | _ => false
  | .publish => false

/-- The owner is inside `LiveSource::stop()`. -/
def inStop : LiveSource.Stopper → Bool
  | .flagged | .locked => true
  | _ => false

/-- The actions of the thread that is inside `LiveSource::next()`. -/
def byReader : LiveSource.Action → Bool
  | .reader | .connectOnce | .sleep _ => true
  | _ => false

/-- The label names the pipeline's part of an action and the source's part. -/
inductive Step (cfg : Setup) :
    State → Option Thread × Option LiveSource.Action → State → Prop where
  | pipeline {s a p} : callsSource s.pipeline a = false →
      (a = .owner → inStop s.live.stopper = false) →
      IngestionPipeline.Step cfg.pipeline s.pipeline a p →
      Step cfg s (some a, none) { s with pipeline := p }
  | start {s rest} : s.pipeline.owner = .idle → s.pipeline.script = .start :: rest →
      inStop s.live.stopper = false →
      Step cfg s (some .owner, none)
        ⟨{ s.pipeline with
            script := rest, owner := .launchIngest, started := true, sourceStopped := false },
          { s.live with stopRequested := false }⟩
  | requestStop {s rest l} : s.pipeline.owner = .idle →
      s.pipeline.script = .requestStop :: rest → s.pipeline.started = true →
      LiveSource.Step cfg.live cfg.parse s.live .requestStop l →
      Step cfg s (some .owner, some .requestStop)
        ⟨{ s.pipeline with script := rest, sourceStopped := true }, l⟩
  | finishStop {s b l} : byReader b = false → inStop s.live.stopper = true →
      LiveSource.Step cfg.live cfg.parse s.live b l →
      Step cfg s (none, some b) { s with live := l }
  /-- `stop()` once more: the flag is up already, and the socket is closed again. -/
  | requestStopAgain {s rest} : s.pipeline.owner = .idle →
      s.pipeline.script = .requestStop :: rest → s.pipeline.started = true →
      s.live.stopper = .returned → s.live.reader.holdsMutex = false →
      Step cfg s (some .owner, none)
        ⟨{ s.pipeline with script := rest, sourceStopped := true },
          { s.live with stopRequested := true, ws := s.live.ws.map fun _ => .closed }⟩
  | callNext {s} : s.pipeline.ingest = .atNext → s.live.reader = .idle →
      Step cfg s (some .ingest, some .reader)
        ⟨{ s.pipeline with ingest := .inNext s.pipeline.sourceStopped },
          s.live.setReader .nextTest⟩
  | inNext {s late b l} : s.pipeline.ingest = .inNext late → byReader b = true →
      LiveSource.Step cfg.live cfg.parse s.live b l → l.returns = s.live.returns →
      Step cfg s (none, some b) { s with live := l }
  /-- The event is in the caller's `out`. -/
  | nextTrue {s late b l e} : s.pipeline.ingest = .inNext late →
      LiveSource.Step cfg.live cfg.parse s.live b l →
      l.returns = s.live.returns ++ [some e] →
      Step cfg s (some .ingest, some b)
        ⟨{ s.pipeline with
            ingest := .received l.out, nextCalls := s.pipeline.nextCalls + 1
            yielded := s.pipeline.yielded ++ [l.out] }, l⟩
  | nextFalse {s late b l} : s.pipeline.ingest = .inNext late →
      LiveSource.Step cfg.live cfg.parse s.live b l →
      l.returns = s.live.returns ++ [none] →
      Step cfg s (some .ingest, some b)
        ⟨{ s.pipeline with
            ingest := .exiting, nextCalls := s.pipeline.nextCalls + 1
            exhausted := !s.pipeline.sourceStopped }, l⟩

variable {cfg : Setup} {s t : State} {l l' : LiveSource.State} {b : LiveSource.Action}
  {e : MarketEvent} {script : List Call} {live : LiveSourceConfig}
  {parse : Bytes → Option MarketEvent}

theorem contract_obeys : contract.Obeys where
  returns k late now := by
    cases late with
    | false => exact ⟨some {}, by simp [contract]⟩
    | true => exact ⟨none, by simp [contract]⟩
  stops k now e h := by simp [contract] at h

/-- Only `deliver` returns true, with its event in `out`. -/
theorem returns_some (h : LiveSource.Step live parse l b l')
    (hr : l'.returns = l.returns ++ [some e]) :
    l.reader = .deliver e ∧ l'.out = e ∧ l'.reader = .idle ∧
      l'.stopRequested = l.stopRequested ∧ l'.stopper = l.stopper := by
  cases h with
  | deliver hd =>
    obtain rfl := Option.some.inj (List.singleton_inj.mp (List.append_cancel_left hr))
    exact ⟨hd, rfl, rfl, rfl, rfl⟩
  | stopSeen => simpa using List.append_cancel_left hr
  | _ => simp [LiveSource.State.setReader] at hr

/-- Only a test that finds `stop_requested_` set returns false. -/
theorem returns_none (h : LiveSource.Step live parse l b l')
    (hr : l'.returns = l.returns ++ [none]) :
    l.stopRequested = true ∧ l'.reader = .idle ∧ l'.stopRequested = l.stopRequested ∧
      l'.stopper = l.stopper := by
  cases h with
  | stopSeen _ hs => exact ⟨hs, rfl, rfl, rfl⟩
  | deliver => simpa using List.append_cancel_left hr
  | _ => simp [LiveSource.State.setReader] at hr

theorem move_not_idle {r pc : LiveSource.Reader} (h : LiveSource.Move parse l r pc) :
    pc ≠ .idle := by
  rintro rfl
  cases h

/-- A step inside the call neither leaves it nor touches the stop request. -/
theorem returns_same (h : LiveSource.Step live parse l b l') (hb : byReader b = true)
    (hr : l'.returns = l.returns) :
    l'.reader ≠ .idle ∧ l'.stopRequested = l.stopRequested ∧ l'.stopper = l.stopper ∧
      ¬ (l.reader = .nextTest ∧ l.stopRequested = true) := by
  cases h with
  | move hm hmove =>
    subst hm
    refine ⟨move_not_idle hmove, rfl, rfl, ?_⟩
    rintro ⟨hn, hs⟩
    rw [hn] at hmove
    cases hmove with
    | loop h => simp [hs] at h
    | threw h => simp [LiveSource.Reader.throws] at h
  | stopSeen | deliver => simp at hr
  | requestStop | lockStop | closeSocket => simp [byReader] at hb
  | notConnected hn | connectOnce hn | resolved hn | hostNameRefused hn | discard hn
    | emplace hn | setConnected hn | connectThrew hn | sleep hn | countReconnect hn
    | dropConnected hn | frame _ _ hn | readError hn | countReceived hn | countMalformed hn =>
    simp [LiveSource.State.setReader, hn]

/-- What `stop()` does past its first store. -/
theorem finish_stop (h : LiveSource.Step live parse l b l') (hb : byReader b = false)
    (hs : inStop l.stopper = true) :
    l'.reader = l.reader ∧ l'.stopRequested = l.stopRequested ∧ l'.returns = l.returns ∧
      l'.stopper ≠ .notCalled := by
  cases h with
  | requestStop hn => simp [hn, inStop] at hs
  | lockStop | closeSocket => simp
  | _ => simp [byReader] at hb

/-- A pipeline action outside the source's calls. -/
theorem uncalled_frame {p q : IngestionPipeline.State MarketEvent} {a : Thread}
    (h : IngestionPipeline.Step cfg.pipeline p a q) (hc : IngestionPipeline.Control p)
    (ha : callsSource p a = false) :
    q.sourceStopped = p.sourceStopped ∧ q.started = p.started ∧
      (∀ late, q.ingest = .inNext late ↔ p.ingest = .inNext late) ∧ q.yielded = p.yielded ∧
      (q.ingest.looping = false → p.ingest.looping = false) := by
  cases h with
  | startThrows ho hs | start ho hs => simp [callsSource, ho, hs] at ha
  | requestStop ho hs =>
    simp only [callsSource, ho, hs] at ha
    simp [ha]
  | launchIngest ho => simp [hc.ingest_notStarted ho, IngestPC.looping]
  | callNext hi | nextTrue hi | nextFalse hi => simp [callsSource, hi] at ha
  | pushFalse hi _ hp => exact (IngestionPipeline.push_not_refused hc hi hp).elim
  | countReceived hi | record hi | pushTrue hi | finishIngest hi => simp [hi, IngestPC.looping]
  | _ => simp

/-- The source's members agree with what the pipeline knows about its source. -/
structure Coupled (s : State) : Prop where
  flag : s.live.stopRequested = s.pipeline.sourceStopped
  unstarted : s.pipeline.started = false → s.live.stopper = .notCalled
  inCall : s.live.reader ≠ .idle ↔ ∃ late, s.pipeline.ingest = .inNext late
  late : s.pipeline.ingest = .inNext true →
    s.live.reader = .nextTest ∧ s.live.stopRequested = true
  yielded : s.pipeline.yielded = s.live.events
  left : s.pipeline.ingest.looping = false → s.live.stopRequested = true

/-- What every state of a pipeline keeps that is started at most once. -/
structure Invariant (cfg : Setup) (s : State) : Prop where
  flow : Flow cfg.pipeline s.pipeline
  consistent : LiveSource.Consistent s.live
  coupled : Coupled s

theorem Invariant.before_start {rest : List Call} (hi : Invariant cfg s)
    (hs : s.pipeline.script = .start :: rest) :
    s.pipeline.started = false ∧ s.live.stopRequested = false := by
  have hst : s.pipeline.started = false := by
    cases h : s.pipeline.started with
    | false => rfl
    | true => exact (hi.flow.once.started h (by simp [hs])).elim
  refine ⟨hst, ?_⟩
  cases hr : s.live.stopRequested with
  | false => rfl
  | true => exact absurd (hi.coupled.unstarted hst) (hi.consistent.requested.mp hr)

theorem Invariant.closed_again (hi : Invariant cfg s) (hs : s.live.stopper = .returned) :
    { s.live with stopRequested := true, ws := s.live.ws.map fun _ => .closed } = s.live := by
  have hreq := hi.consistent.requested.mpr (by simp [hs])
  have hws : (s.live.ws.map fun _ => LiveSource.Socket.closed) = s.live.ws := by
    have hne := hi.consistent.closed hs
    cases hw : s.live.ws with
    | none => rfl
    | some socket =>
      cases socket with
      | opened => exact (hne hw).elim
      | closed => rfl
  rw [hws, ← hreq]

theorem pipeline_visible {x : Option Thread × Option LiveSource.Action} {a : Thread}
    (hi : Invariant cfg s) (h : Step cfg s x t) (hx : x.1 = some a) :
    IngestionPipeline.Step cfg.pipeline s.pipeline a t.pipeline := by
  cases h with
  | pipeline _ _ hp =>
    cases hx
    exact hp
  | start ho hs =>
    cases hx
    have hstep : IngestionPipeline.Step cfg.pipeline s.pipeline .owner _ := .start ho hs
    simpa [Setup.pipeline, contract] using hstep
  | requestStop ho hs hst | requestStopAgain ho hs hst =>
    cases hx
    have hstep : IngestionPipeline.Step cfg.pipeline s.pipeline .owner _ := .requestStop ho hs
    simpa [hst] using hstep
  | callNext ha =>
    cases hx
    exact .callNext ha
  | @nextTrue late b l e ha hstep hr =>
    cases hx
    refine .nextTrue ha ⟨fun _ => ?_, by simp⟩
    cases late with
    | false => rfl
    | true =>
      have hd := (returns_some hstep hr).1
      simp [(hi.coupled.late ha).1] at hd
  | nextFalse ha hstep hr =>
    cases hx
    refine .nextFalse ha ⟨by simp, fun _ => ?_⟩
    simp [← hi.coupled.flag, (returns_none hstep hr).1]
  | finishStop | inNext => cases hx

theorem pipeline_hidden {x : Option Thread × Option LiveSource.Action}
    (h : Step cfg s x t) (hx : x.1 = none) : t.pipeline = s.pipeline := by
  cases h with
  | finishStop | inNext => rfl
  | _ => cases hx

theorem live_visible {x : Option Thread × Option LiveSource.Action}
    (h : Step cfg s x t) (hx : x.2 = some b) :
    LiveSource.Step cfg.live cfg.parse s.live b t.live := by
  cases h with
  | requestStop _ _ _ hstep | finishStop _ _ hstep | inNext _ _ hstep | nextTrue _ hstep
    | nextFalse _ hstep =>
    cases hx
    exact hstep
  | callNext _ hr =>
    cases hx
    exact .move hr .call
  | _ => cases hx

theorem live_hidden {x : Option Thread × Option LiveSource.Action}
    (hi : Invariant cfg s) (h : Step cfg s x t) (hx : x.2 = none) : t.live = s.live := by
  cases h with
  | pipeline => rfl
  | start ho hs =>
    have hreq := (hi.before_start hs).2
    simp [← hreq]
  | requestStopAgain _ _ _ hs => exact hi.closed_again hs
  | _ => cases hx

theorem live_consistent {x : Option Thread × Option LiveSource.Action}
    (hi : Invariant cfg s) (h : Step cfg s x t) : LiveSource.Consistent t.live := by
  cases hx : x.2 with
  | none => exact live_hidden hi h hx ▸ hi.consistent
  | some b => exact LiveSource.consistent_step (live_visible h hx) hi.consistent

theorem pipeline_flow {x : Option Thread × Option LiveSource.Action}
    (hi : Invariant cfg s) (h : Step cfg s x t) : Flow cfg.pipeline t.pipeline := by
  cases hx : x.1 with
  | none => exact pipeline_hidden h hx ▸ hi.flow
  | some a => exact IngestionPipeline.flow_step (pipeline_visible hi h hx) hi.flow

theorem coupled_step {x : Option Thread × Option LiveSource.Action} (hi : Invariant cfg s)
    (h : Step cfg s x t) : Coupled t := by
  obtain ⟨hflag, hun, hin, hlate, hy, hleft⟩ := hi.coupled
  cases h with
  | pipeline hc _ hp =>
    obtain ⟨hsrc, hst, hing, hyd, hloop⟩ := uncalled_frame hp hi.flow.control hc
    refine ⟨hflag.trans hsrc.symm, fun h => hun (hst ▸ h), ?_, fun h => hlate ((hing true).mp h),
      hyd.trans hy, fun h => hleft (hloop h)⟩
    simpa only [hing] using hin
  | start _ hs =>
    obtain ⟨-, hreq⟩ := hi.before_start hs
    refine ⟨rfl, by simp, hin, fun h => ?_, hy, fun h => ?_⟩
    · have hset := (hlate h).2
      simp [hreq] at hset
    · have hset := hleft h
      simp [hreq] at hset
  | requestStop _ _ hst hstep =>
    cases hstep with
    | requestStop =>
      exact ⟨rfl, by simp [hst], hin, fun h => ⟨(hlate h).1, rfl⟩, hy, fun _ => rfl⟩
  | finishStop hb hs hstep =>
    obtain ⟨hr, hreq, hret, -⟩ := finish_stop hstep hb hs
    refine ⟨hreq.trans hflag, fun h => ?_, ?_, fun h => ?_, ?_, fun h => hreq.trans (hleft h)⟩
    · simp [hun h, inStop] at hs
    · rw [hr]
      exact hin
    · rw [hr, hreq]
      exact hlate h
    · simp only [LiveSource.State.events, hret]
      exact hy
  | requestStopAgain _ _ hst hs =>
    have hreq := hi.consistent.requested.mpr (by simp [hs])
    rw [hi.closed_again hs]
    exact ⟨hreq, by simp [hst], hin, hlate, hy, fun _ => hreq⟩
  | callNext ha hr =>
    refine ⟨hflag, hun, by simp [LiveSource.State.setReader], fun h => ⟨rfl, ?_⟩, hy,
      by simp [IngestPC.looping]⟩
    exact hflag.trans (IngestionPipeline.IngestPC.inNext.inj h)
  | inNext ha hb hstep hret =>
    obtain ⟨hne, hreq, hstop, hnot⟩ := returns_same hstep hb hret
    refine ⟨hreq.trans hflag, fun h => hstop.trans (hun h), ⟨fun _ => ⟨_, ha⟩, fun _ => hne⟩,
      fun h => (hnot (hlate h)).elim, ?_, fun h => hreq.trans (hleft h)⟩
    simp only [LiveSource.State.events, hret]
    exact hy
  | nextTrue ha hstep hret =>
    obtain ⟨-, hout, hidle, hreq, hstop⟩ := returns_some hstep hret
    refine ⟨hreq.trans hflag, fun h => hstop.trans (hun h), by simp [hidle], by simp, ?_,
      by simp [IngestPC.looping]⟩
    simp [LiveSource.State.events, hret, hout, hy, List.reduceOption]
  | nextFalse ha hstep hret =>
    obtain ⟨hset, hidle, hreq, hstop⟩ := returns_none hstep hret
    refine ⟨hreq.trans hflag, fun h => hstop.trans (hun h), by simp [hidle], by simp, ?_,
      fun _ => hreq.trans hset⟩
    simp [LiveSource.State.events, hret, hy, List.reduceOption]

theorem invariant_initial (ho : OneStart script) : Invariant cfg (initial cfg script) where
  flow := IngestionPipeline.flow_initial ho
  consistent := LiveSource.consistent_initial
  coupled := ⟨rfl, fun _ => rfl, by simp [initial, LiveSource.initial, IngestionPipeline.initial],
    by simp [initial, IngestionPipeline.initial], rfl,
    by simp [initial, IngestionPipeline.initial, IngestPC.looping]⟩

theorem simulates_pipeline :
    Simulates (Step cfg) (IngestionPipeline.Step cfg.pipeline) State.pipeline Prod.fst
      (Invariant cfg) where
  keeps hi h := ⟨pipeline_flow hi h, live_consistent hi h, coupled_step hi h⟩
  visible hi h hx := pipeline_visible hi h hx
  hidden _ h hx := pipeline_hidden h hx

theorem simulates_live :
    Simulates (Step cfg) (LiveSource.Step cfg.live cfg.parse) State.live Prod.snd
      (Invariant cfg) where
  keeps := simulates_pipeline.keeps
  visible _ h hx := live_visible h hx
  hidden hi h hx := live_hidden hi h hx

/-- A frame that `messages_received_` does not count yet. -/
def uncounted : LiveSource.Reader → ℕ
  | .countReceived _ _ => 1
  | _ => 0

theorem frames_counted_step (h : LiveSource.Step live parse l b l')
    (hl : l.frames.length = l.messagesReceived + uncounted l.reader) :
    l'.frames.length = l'.messagesReceived + uncounted l'.reader := by
  cases h with
  | move hr hm =>
    subst hr
    have hkeep : ∀ {r pc}, LiveSource.Move parse l r pc → uncounted pc = uncounted r := by
      intro r pc hm
      cases hm with
      | threw ht => cases r <;> simp_all [LiveSource.Reader.throws, uncounted]
      | _ => rfl
    simpa [LiveSource.State.setReader, hkeep hm] using hl
  | stopSeen ht =>
    have hz : uncounted l.reader = 0 := by
      cases hr : l.reader <;> simp_all [LiveSource.Reader.testsStop, uncounted]
    rw [hz] at hl
    exact hl
  | frame _ _ hr | countReceived hr =>
    rw [hr] at hl
    simp [LiveSource.State.setReader, uncounted] at hl ⊢
    omega
  | requestStop | lockStop | closeSocket => exact hl
  | notConnected hr | connectOnce hr | resolved hr | hostNameRefused hr | discard hr
    | emplace hr | setConnected hr | connectThrew hr | sleep hr | countReconnect hr
    | dropConnected hr | readError hr | countMalformed hr | deliver hr =>
    rw [hr] at hl
    exact hl

theorem frames_counted (h : Reachable (LiveSource.Step live parse) LiveSource.initial l) :
    l.frames.length = l.messagesReceived + uncounted l.reader :=
  h.invariant (P := fun l => l.frames.length = l.messagesReceived + uncounted l.reader) rfl
    fun ht hstep => frames_counted_step hstep ht

/-- The first frame has been delivered. -/
def afterFrame (cfg : Setup) (raw : Bytes) (ingestTime : Int64) (e : MarketEvent) : State where
  pipeline :=
    { IngestionPipeline.initial cfg.pipeline [.requestStop, .stop] with
      ingest := .received (e.live ingestTime), publish := .atPop, ingestJoinable := true
      publishJoinable := true, started := true, nextCalls := 1, yielded := [e.live ingestTime] }
  live :=
    { LiveSource.initial with
      connected := true, hadConnectedOnce := true, ws := some .opened
      backoff := cfg.live.initialBackoff, messagesReceived := 1, out := e.live ingestTime
      connects := 1, frames := [(raw, ingestTime)], returns := [some (e.live ingestTime)] }

theorem afterFrame_reachable (cfg : Setup) (raw : Bytes) (ingestTime : Int64)
    (hp : cfg.parse raw = some e) :
    Reachable (Step cfg) (initial cfg [.start, .requestStop, .stop])
      (afterFrame cfg raw ingestTime e) := by
  have hfree : LiveSource.Stopper.notCalled ≠ .locked := by decide
  have h₁ : Reachable (Step cfg) (initial cfg [.start, .requestStop, .stop]) _ :=
    (Reachable.refl _).snoc (.start rfl rfl rfl)
  have h₂ := h₁.snoc (.pipeline rfl (fun _ => rfl) (.launchIngest rfl rfl))
  have h₃ := h₂.snoc (.pipeline rfl (fun _ => rfl) (.launchPublish rfl rfl))
  have h₄ := h₃.snoc (.callNext rfl rfl)
  have h₅ := h₄.snoc (.inNext rfl rfl (.move rfl (.loop rfl)) rfl)
  have h₆ := h₅.snoc (.inNext rfl rfl (.notConnected rfl rfl) rfl)
  have h₇ := h₆.snoc (.inNext rfl rfl (.connectOnce rfl rfl) rfl)
  have h₈ := h₇.snoc (.inNext rfl rfl (.resolved rfl) rfl)
  have h₉ := h₈.snoc (.inNext rfl rfl (.move rfl .hostNameSet) rfl)
  have h₁₀ := h₉.snoc (.inNext rfl rfl (.move rfl .tcpConnected) rfl)
  have h₁₁ := h₁₀.snoc (.inNext rfl rfl (.move rfl .tlsDone) rfl)
  have h₁₂ := h₁₁.snoc (.inNext rfl rfl (.move rfl .wsDone) rfl)
  have h₁₃ := h₁₂.snoc (.inNext rfl rfl (.move rfl (.lockPublish hfree)) rfl)
  have h₁₄ := h₁₃.snoc (.inNext rfl rfl (.move rfl (.publish rfl)) rfl)
  have h₁₅ := h₁₄.snoc (.inNext rfl rfl (.emplace rfl) rfl)
  have h₁₆ := h₁₅.snoc (.inNext rfl rfl (.setConnected rfl) rfl)
  have h₁₇ := h₁₆.snoc (.inNext rfl rfl (.countReconnect rfl) rfl)
  have h₁₈ := h₁₇.snoc (.inNext rfl rfl (.move rfl (.lockStream hfree)) rfl)
  have h₁₉ := h₁₈.snoc (.inNext rfl rfl (.move rfl (.hasStream rfl)) rfl)
  have h₂₀ := h₁₉.snoc (.inNext rfl rfl (.frame raw ingestTime rfl) rfl)
  have h₂₁ := h₂₀.snoc (.inNext rfl rfl (.countReceived rfl) rfl)
  have h₂₂ := h₂₁.snoc (.inNext rfl rfl (.move rfl (.event hp)) rfl)
  exact h₂₂.snoc (.nextTrue rfl (.deliver rfl) rfl)

/-- A one-slot pipeline that records. -/
def oneSlot (parse : Bytes → Option MarketEvent) : Setup := ⟨1, fun _ => true, true, {}, parse⟩

/-- A second frame on the same connection, while the first event waits to be published. -/
def afterSecond (parse : Bytes → Option MarketEvent) (raw raw' : Bytes) (e e' : MarketEvent) :
    State where
  pipeline :=
    { (afterFrame (oneSlot parse) raw 7 e).pipeline with
      ingest := .received (e'.live 9), publish := .popped (e.live 7), queue := ⟨1, [], 1, false⟩
      eventsReceived := 1, nextCalls := 2, yielded := [e.live 7, e'.live 9]
      recorded := [e.live 7] }
  live :=
    { (afterFrame (oneSlot parse) raw 7 e).live with
      messagesReceived := 2, out := e'.live 9, frames := [(raw, 7), (raw', 9)]
      returns := [some (e.live 7), some (e'.live 9)] }

theorem afterSecond_reachable {raw raw' : Bytes} {e e' : MarketEvent} (hp : parse raw = some e)
    (hp' : parse raw' = some e') :
    Reachable (Step (oneSlot parse)) (initial (oneSlot parse) [.start, .requestStop, .stop])
      (afterSecond parse raw raw' e e') := by
  have hfree : LiveSource.Stopper.notCalled ≠ .locked := by decide
  have h₀ := afterFrame_reachable (oneSlot parse) raw 7 hp
  have h₁ := h₀.snoc (.pipeline rfl (fun _ => rfl) (.countReceived rfl))
  have h₂ := h₁.snoc (.pipeline rfl (fun _ => rfl) (.record rfl))
  have h₃ := h₂.snoc (.pipeline rfl (fun _ => rfl) (.pushTrue rfl rfl rfl))
  have h₄ := h₃.snoc (.pipeline rfl (fun _ => rfl) (.popTrue rfl rfl rfl))
  have h₅ := h₄.snoc (.callNext rfl rfl)
  have h₆ := h₅.snoc (.inNext rfl rfl (.move rfl (.loop rfl)) rfl)
  have h₇ := h₆.snoc (.inNext rfl rfl (.move rfl (.isConnected rfl)) rfl)
  have h₈ := h₇.snoc (.inNext rfl rfl (.move rfl (.lockStream hfree)) rfl)
  have h₉ := h₈.snoc (.inNext rfl rfl (.move rfl (.hasStream rfl)) rfl)
  have h₁₀ := h₉.snoc (.inNext rfl rfl (.frame raw' 9 rfl) rfl)
  have h₁₁ := h₁₀.snoc (.inNext rfl rfl (.countReceived rfl) rfl)
  have h₁₂ := h₁₁.snoc (.inNext rfl rfl (.move rfl (.event hp')) rfl)
  exact h₁₂.snoc (.nextTrue rfl (.deliver rfl) rfl)

/-- Two frames from the socket to the publisher, and the stop behind them. -/
theorem two_frames_run {raw raw' : Bytes} {e e' : MarketEvent} (hp : parse raw = some e)
    (hp' : parse raw' = some e') : ∃ s : State,
    Reachable (Step (oneSlot parse)) (initial (oneSlot parse) [.start, .requestStop, .stop]) s ∧
      s.pipeline.stopped = true ∧ s.live.frames = [(raw, 7), (raw', 9)] := by
  have h₀ := afterSecond_reachable hp hp'
  have h₁ := h₀.snoc (.pipeline rfl (fun _ => rfl) (.countReceived rfl))
  have h₂ := h₁.snoc (.pipeline rfl (fun _ => rfl) (.record rfl))
  have h₃ := h₂.snoc (.pipeline rfl (fun _ => rfl) (.pushTrue rfl rfl rfl))
  have h₄ := h₃.snoc (.requestStop rfl rfl rfl (.requestStop rfl))
  have h₅ := h₄.snoc (.finishStop rfl rfl (.lockStop rfl rfl))
  have h₆ := h₅.snoc (.finishStop rfl rfl (.closeSocket rfl))
  have h₇ := h₆.snoc (.callNext rfl rfl)
  have h₈ := h₇.snoc (.nextFalse rfl (.stopSeen rfl rfl) rfl)
  have h₉ := h₈.snoc (.pipeline rfl (fun _ => rfl) (.finishIngest rfl))
  have h₁₀ := h₉.snoc (.pipeline rfl (fun _ => rfl) (.stop rfl rfl rfl))
  have h₁₁ := h₁₀.snoc (.pipeline rfl (fun _ => rfl) (.joinIngest rfl fun _ => rfl))
  have h₁₂ := h₁₁.snoc (.pipeline rfl (fun _ => rfl) (.publish rfl))
  have h₁₃ := h₁₂.snoc (.pipeline rfl (fun _ => rfl) (.publishReturn rfl))
  have h₁₄ := h₁₃.snoc (.pipeline rfl (fun _ => rfl) (.countPublished rfl))
  have h₁₅ := h₁₄.snoc (.pipeline rfl (fun _ => rfl) (.popTrue rfl rfl rfl))
  have h₁₆ := h₁₅.snoc (.pipeline rfl (fun _ => rfl) (.publish rfl))
  have h₁₇ := h₁₆.snoc (.pipeline rfl (fun _ => rfl) (.publishReturn rfl))
  have h₁₈ := h₁₇.snoc (.pipeline rfl (fun _ => rfl) (.countPublished rfl))
  have h₁₉ := h₁₈.snoc (.pipeline rfl (fun _ => rfl) (.shutDownQueue rfl))
  have h₂₀ := h₁₉.snoc (.pipeline rfl (fun _ => rfl) (.popFalse rfl rfl rfl))
  have h₂₁ := h₂₀.snoc (.pipeline rfl (fun _ => rfl) (.flush rfl))
  have h₂₂ := h₂₁.snoc (.pipeline rfl (fun _ => rfl) (.joinPublish rfl fun _ => rfl))
  exact ⟨_, h₂₂, rfl, rfl⟩

/-- A run of the two together is a run of the pipeline over the contract and a run of the
source, which agree on the stop request and on the events. -/
theorem live_source_keeps_contract (cfg : Setup) (ho : OneStart script)
    {xs : List (Option Thread × Option LiveSource.Action)}
    (h : Trace (Step cfg) (initial cfg script) xs s) :
    Trace (IngestionPipeline.Step cfg.pipeline) (IngestionPipeline.initial cfg.pipeline script)
      (xs.filterMap Prod.fst) s.pipeline ∧
    Trace (LiveSource.Step cfg.live cfg.parse) LiveSource.initial (xs.filterMap Prod.snd) s.live ∧
    s.live.stopRequested = s.pipeline.sourceStopped ∧ s.pipeline.yielded = s.live.events ∧
    (s.pipeline.ingest.looping = false → s.live.stopRequested = true) := by
  obtain ⟨hp, hi⟩ := simulates_pipeline.trace (invariant_initial ho) h
  obtain ⟨hl, -⟩ := simulates_live.trace (invariant_initial ho) h
  exact ⟨hp, hl, hi.coupled.flag, hi.coupled.yielded, hi.coupled.left⟩

theorem live_source_keeps_contract_two_frames : ∃ s : State, s.pipeline.stopped = true ∧
    s.live.frames.length = 2 ∧ s.live.stopRequested = s.pipeline.sourceStopped ∧
    s.pipeline.yielded = s.live.events := by
  obtain ⟨s, ⟨xs, h⟩, hstop, hframes⟩ :=
    @two_frames_run (fun _ => some {}) [0] [1] {} {} rfl rfl
  obtain ⟨-, -, hflag, hyield, -⟩ := live_source_keeps_contract _ (by decide) h
  exact ⟨s, hstop, by rw [hframes]; rfl, hflag, hyield⟩

theorem Invariant.stopped_idle (hi : Invariant cfg s) (h : s.pipeline.stopped = true) :
    s.live.reader = .idle := by
  by_contra hne
  obtain ⟨late, hl⟩ := hi.coupled.inCall.mp hne
  simp [(hi.flow.stopped h).1] at hl

/-- After `stop()` the pipeline has seen every frame that parses. -/
theorem yielded_of_stopped (ho : OneStart script)
    (h : Reachable (Step cfg) (initial cfg script) s) (hstop : s.pipeline.stopped = true) :
    s.pipeline.yielded = s.live.frames.filterMap (LiveSource.decode cfg.parse) := by
  obtain ⟨hlive, hi⟩ := simulates_live.reachable (invariant_initial ho) h
  have hframes := (LiveSource.accounted_reachable hlive).frames
  rw [hi.stopped_idle hstop] at hframes
  rw [hi.coupled.yielded, ← hframes]
  simp [LiveSource.Reader.pending]

/-- Every frame that parses is in exactly one place between the socket and the publisher.
After `stop()` they have all been handed over, and the counters of the source and of the
pipeline add up to the frames. -/
theorem frames_reach_publisher (cfg : Setup) (ho : OneStart script)
    (h : Reachable (Step cfg) (initial cfg script) s) :
    s.pipeline.handed ++ s.pipeline.publish.held ++ s.pipeline.queue.queue ++
      s.pipeline.ingest.held ++ (s.live.reader.pending cfg.parse).toList =
        s.live.frames.filterMap (LiveSource.decode cfg.parse) ∧
    (s.pipeline.stopped = true →
      s.pipeline.handed = s.live.frames.filterMap (LiveSource.decode cfg.parse) ∧
      s.live.messagesReceived = s.live.frames.length ∧
      s.pipeline.eventsReceived + s.live.messagesMalformed = s.live.messagesReceived ∧
      s.pipeline.eventsPublished + s.pipeline.publishFailures = s.pipeline.eventsReceived ∧
      (cfg.recorder = true → s.pipeline.recorded = s.pipeline.handed)) := by
  obtain ⟨hlive, hi⟩ := simulates_live.reachable (invariant_initial ho) h
  have ha := LiveSource.accounted_reachable hlive
  refine ⟨?_, fun hstop => ?_⟩
  · rw [← hi.flow.placed, hi.coupled.yielded]
    exact ha.frames
  · obtain ⟨hhand, hrecv, hsum, hrec⟩ := hi.flow.complete hstop
    have hcount := ha.received
    have hlen := frames_counted hlive
    simp only [hi.stopped_idle hstop, LiveSource.Reader.counting, uncounted, Bool.toNat_false,
      Nat.add_zero] at hcount hlen
    refine ⟨hhand.trans (yielded_of_stopped ho h hstop), hlen.symm, ?_, hsum,
      fun hb => (hrec hb).trans hhand.symm⟩
    rw [hrecv, hi.coupled.yielded, hcount]
    omega

theorem frames_reach_publisher_two_frames : ∃ s : State, s.live.frames = [([0], 7), ([1], 9)] ∧
    s.pipeline.handed = [MarketEvent.live {} 7, MarketEvent.live {} 9] ∧
    s.live.messagesReceived = 2 := by
  obtain ⟨s, h, hstop, hframes⟩ := @two_frames_run (fun _ => some {}) [0] [1] {} {} rfl rfl
  obtain ⟨hhand, hrecv, -⟩ := (frames_reach_publisher _ (by decide) h).2 hstop
  rw [hframes] at hhand hrecv
  exact ⟨s, hframes, hhand, hrecv⟩

end TickForge.LiveIngestion
