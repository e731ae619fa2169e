import TickForge.Lib.Transition
import TickForge.Sources.BinanceTradeParser

/-! The thread that loops in `next()`, the one that calls `stop()`, and the stream they share. -/
namespace TickForge

open ByteString Transition

/-- In milliseconds. -/
structure LiveSourceConfig where
  initialBackoff : ℕ := 1000
  maxBackoff : ℕ := 30000

namespace LiveSource

/-- The TCP socket under a stream, as far as `stop()` is concerned. -/
inductive Socket where
  | opened
  | closed
  deriving DecidableEq, Repr

/-- Positions of the thread that calls `next()`. -/
inductive Reader where
  /-- Between two calls of `next()`. -/
  | idle
  | nextTest
  | ensureConnected
  | retryTest
  | resolve
  | setHostName
  /-- Inside `net::connect`. -/
  | connect
  | tlsHandshake
  | wsHandshake
  | lockPublish
  | publishTest
  | emplace
  | setConnected
  | connectThrew
  /-- `connectOnce()` has returned false. -/
  | connectFailed
  | sleep
  /-- `connectOnce()` has returned true. -/
  | countReconnect
  | lockStream
  | checkStream
  | dropConnected
  /-- Inside `stream->read`. -/
  | read
  | readError
  | readErrorTest
  | countReceived (raw : Bytes) (ingestTime : Int64)
  | parse (raw : Bytes) (ingestTime : Int64)
  | countMalformed
  | deliver (event : MarketEvent)
  deriving DecidableEq

/-- Positions of the thread that calls `stop()` once. -/
inductive Stopper where
  | notCalled
  | flagged
  | locked
  | returned
  deriving DecidableEq, Repr

/-- The members of the source and the reader's locals, and what has happened so far. -/
structure State where
  reader : Reader
  stopper : Stopper
  stopRequested : Bool
  connected : Bool
  hadConnectedOnce : Bool
  ws : Option Socket
  /-- The `local` of `connectOnce()`. -/
  localWs : Option Socket
  backoff : ℕ
  messagesReceived : ℕ
  messagesMalformed : ℕ
  reconnects : ℕ
  /-- The caller's `out`. -/
  out : MarketEvent
  /-- How often `connectOnce()` has returned true. -/
  connects : ℕ
  /-- How many connections have been dropped because of `stop()`. -/
  discarded : ℕ
  /-- The frames that were read, with the time of each read. -/
  frames : List (Bytes × Int64)
  /-- What the calls of `next()` returned: an event with true, or false. -/
  returns : List (Option MarketEvent)

/-- Who moves; the attempts to connect and the sleeps are visible. -/
inductive Action where
  | reader
  | connectOnce
  | sleep (ms : ℕ)
  | requestStop
  | lockStop
  | closeSocket
  deriving DecidableEq, Repr

def initial : State where
  reader := .idle
  stopper := .notCalled
  stopRequested := false
  connected := false
  hadConnectedOnce := false
  ws := none
  localWs := none
  backoff := 0
  messagesReceived := 0
  messagesMalformed := 0
  reconnects := 0
  out := {}
  connects := 0
  discarded := 0
  frames := []
  returns := []

def State.setReader (s : State) (pc : Reader) : State := { s with reader := pc }

/-- Inside a section that is guarded by `ws_mutex_`. -/
def Reader.holdsMutex : Reader → Bool
  | .publishTest | .emplace | .setConnected | .checkStream | .dropConnected => true
  | _ => false

/-- Inside a call of `connectOnce()` that can throw. -/
def Reader.throws : Reader → Bool
  | .resolve | .connect | .tlsHandshake | .wsHandshake => true
  | _ => false

/-- At a test of `stop_requested_` that makes `next()` return false. -/
def Reader.testsStop : Reader → Bool
  | .nextTest | .retryTest | .connectFailed | .readErrorTest => true
  | _ => false

/-- The reader's moves that change nothing but its position. -/
inductive Move (parse : Bytes → Option MarketEvent) (s : State) : Reader → Reader → Prop where
  | call : Move parse s .idle .nextTest
  | loop : s.stopRequested = false → Move parse s .nextTest .ensureConnected
  | isConnected : s.connected = true → Move parse s .ensureConnected .lockStream
  | hostNameSet : Move parse s .setHostName .connect
  | tcpConnected : Move parse s .connect .tlsHandshake
  | tlsDone : Move parse s .tlsHandshake .wsHandshake
  | wsDone : Move parse s .wsHandshake .lockPublish
  | threw {pc : Reader} : pc.throws = true → Move parse s pc .connectThrew
  | lockPublish : s.stopper ≠ .locked → Move parse s .lockPublish .publishTest
  | publish : s.stopRequested = false → Move parse s .publishTest .emplace
  | retry : s.stopRequested = false → Move parse s .connectFailed .sleep
  | lockStream : s.stopper ≠ .locked → Move parse s .lockStream .checkStream
  | noStream : s.ws = none → Move parse s .checkStream .dropConnected
  | hasStream : s.ws.isSome = true → Move parse s .checkStream .read
  | readFailed : Move parse s .read .readError
  | reconnect : s.stopRequested = false → Move parse s .readErrorTest .nextTest
  | malformed {raw : Bytes} {t : Int64} : parse raw = none →
      Move parse s (.parse raw t) .countMalformed
  | event {raw : Bytes} {t : Int64} {e : MarketEvent} : parse raw = some e →
      Move parse s (.parse raw t) (.deliver (e.live t))

/-- One access to an atomic, or one call into the network, of either thread. What the network
does, and when, is arbitrary. The parser returns: a frame on which it throws has no step of
its own, and `next()` goes on as over a malformed one. -/
inductive Step (cfg : LiveSourceConfig) (parse : Bytes → Option MarketEvent) :
    State → Action → State → Prop where
  | move {s r pc} : s.reader = r → Move parse s r pc →
      Step cfg parse s .reader (s.setReader pc)
  | stopSeen {s} : s.reader.testsStop = true → s.stopRequested = true →
      Step cfg parse s .reader { s.setReader .idle with returns := s.returns ++ [none] }
  | notConnected {s} : s.reader = .ensureConnected → s.connected = false →
      Step cfg parse s .reader { s.setReader .retryTest with backoff := cfg.initialBackoff }
  | connectOnce {s} : s.reader = .retryTest → s.stopRequested = false →
      Step cfg parse s .connectOnce (s.setReader .resolve)
  | resolved {s} : s.reader = .resolve →
      Step cfg parse s .reader { s.setReader .setHostName with localWs := some .opened }
  | hostNameRefused {s} : s.reader = .setHostName →
      Step cfg parse s .reader { s.setReader .connectFailed with localWs := none }
  | discard {s} : s.reader = .publishTest → s.stopRequested = true →
      Step cfg parse s .reader
        { s.setReader .connectFailed with localWs := none, discarded := s.discarded + 1 }
  /-- The stream that `ws_` held before is destroyed. -/
  | emplace {s} : s.reader = .emplace →
      Step cfg parse s .reader { s.setReader .setConnected with ws := s.localWs, localWs := none }
  | setConnected {s} : s.reader = .setConnected →
      Step cfg parse s .reader
        { s.setReader .countReconnect with connected := true, connects := s.connects + 1 }
  | connectThrew {s} : s.reader = .connectThrew →
      Step cfg parse s .reader
        { s.setReader .connectFailed with localWs := none, connected := false }
  | sleep {s} : s.reader = .sleep →
      Step cfg parse s (.sleep s.backoff)
        { s.setReader .retryTest with backoff := min (s.backoff * 2) cfg.maxBackoff }
  | countReconnect {s} : s.reader = .countReconnect →
      Step cfg parse s .reader { s.setReader .lockStream with
        reconnects := if s.hadConnectedOnce then s.reconnects + 1 else s.reconnects
        hadConnectedOnce := true }
  | dropConnected {s} : s.reader = .dropConnected →
      Step cfg parse s .reader { s.setReader .nextTest with connected := false }
  | frame {s} (raw : Bytes) (t : Int64) : s.reader = .read →
      Step cfg parse s .reader
        { s.setReader (.countReceived raw t) with frames := s.frames ++ [(raw, t)] }
  | readError {s} : s.reader = .readError →
      Step cfg parse s .reader { s.setReader .readErrorTest with connected := false }
  | countReceived {s raw t} : s.reader = .countReceived raw t →
      Step cfg parse s .reader
        { s.setReader (.parse raw t) with messagesReceived := s.messagesReceived + 1 }
  | countMalformed {s} : s.reader = .countMalformed →
      Step cfg parse s .reader
        { s.setReader .nextTest with messagesMalformed := s.messagesMalformed + 1 }
  | deliver {s e} : s.reader = .deliver e →
      Step cfg parse s .reader
        { s.setReader .idle with out := e, returns := s.returns ++ [some e] }
  | requestStop {s} : s.stopper = .notCalled →
      Step cfg parse s .requestStop { s with stopRequested := true, stopper := .flagged }
  | lockStop {s} : s.stopper = .flagged → s.reader.holdsMutex = false →
      Step cfg parse s .lockStop { s with stopper := .locked }
  | closeSocket {s} : s.stopper = .locked →
      Step cfg parse s .closeSocket
        { s with ws := s.ws.map fun _ => .closed, stopper := .returned }

variable {cfg : LiveSourceConfig} {parse : Bytes → Option MarketEvent} {s t : State}
  {a : Action} {r pc : Reader}

/-- Past the test under the mutex, and about to publish the new stream. -/
def Reader.publishing : Reader → Bool
  | .emplace | .setConnected => true
  | _ => false

/-- Where `next()` relies on a stream in `ws_`. -/
def Reader.needsStream : Reader → Bool
  | .setConnected | .countReconnect | .lockStream | .checkStream => true
  | _ => false

/-- Where the new stream is still `connectOnce()`'s own. -/
def Reader.hasLocal : Reader → Bool
  | .setHostName | .connect | .tlsHandshake | .wsHandshake | .lockPublish | .publishTest
  | .emplace => true
  | _ => false

/-- How the two threads keep out of each other's way. -/
structure Consistent (s : State) : Prop where
  requested : s.stopRequested = true ↔ s.stopper ≠ .notCalled
  exclusive : s.reader.holdsMutex = true → s.stopper ≠ .locked
  publishing : s.reader.publishing = true → s.stopper ≠ .returned
  localOpen : s.reader.hasLocal = true → s.localWs = some .opened
  connected : s.connected = true → s.ws.isSome = true
  stream : s.reader.needsStream = true → s.ws.isSome = true
  notDropped : s.reader ≠ .dropConnected
  closed : s.stopper = .returned → s.ws ≠ some .opened

theorem consistent_initial : Consistent initial := by
  constructor <;> simp [initial, Reader.holdsMutex, Reader.publishing, Reader.hasLocal,
    Reader.needsStream]

theorem Consistent.running (hc : Consistent s) (h : s.stopRequested = false) :
    s.stopper = .notCalled := by
  by_contra hne
  rw [hc.requested.mpr hne] at h
  cases h

/-- The reader enters a section only while the stopper is outside. -/
theorem Move.exclusive (h : Move parse s r pc) (hpc : pc.holdsMutex = true) :
    r.holdsMutex = true ∨ s.stopper ≠ .locked := by
  cases h <;> simp_all [Reader.holdsMutex]

theorem Move.publishing (h : Move parse s r pc) (hpc : pc.publishing = true) :
    s.stopRequested = false := by
  cases h <;> simp_all [Reader.publishing]

theorem Move.hasLocal (h : Move parse s r pc) (hpc : pc.hasLocal = true) :
    r.hasLocal = true := by
  cases h <;> simp_all [Reader.hasLocal]

theorem Move.stream (h : Move parse s r pc) (hpc : pc.needsStream = true) :
    r.needsStream = true ∨ s.connected = true := by
  cases h <;> simp_all [Reader.needsStream]

theorem Move.dropped (h : Move parse s r .dropConnected) :
    r.needsStream = true ∧ s.ws = none := by
  cases h with
  | noStream h => exact ⟨rfl, h⟩

theorem consistent_move (h : Move parse s s.reader pc) (hc : Consistent s) :
    Consistent (s.setReader pc) := by
  refine ⟨hc.requested, ?_, ?_, fun hpc => hc.localOpen (h.hasLocal hpc), hc.connected, ?_, ?_,
    hc.closed⟩
  · intro hpc
    rcases h.exclusive hpc with hr | hs
    · exact hc.exclusive hr
    · exact hs
  · intro hpc
    have hs : s.stopper = .notCalled := hc.running (h.publishing hpc)
    simp [State.setReader, hs]
  · intro hpc
    rcases h.stream hpc with hr | hs
    · exact hc.stream hr
    · exact hc.connected hs
  · rintro rfl
    obtain ⟨hr, hs⟩ := h.dropped
    simpa [hs] using hc.stream hr

theorem Reader.holdsMutex_of_publishing (h : r.publishing = true) : r.holdsMutex = true := by
  cases r <;> simp_all [Reader.publishing, Reader.holdsMutex]

/-- A reader step that leaves `ws_` alone and does not enter a section. -/
theorem Consistent.leave (hc : Consistent s) (hstop : t.stopper = s.stopper)
    (hreq : t.stopRequested = s.stopRequested) (hws : t.ws = s.ws)
    (hm : t.reader.holdsMutex = false)
    (hloc : t.reader.hasLocal = true → t.localWs = some .opened)
    (hcon : t.connected = true → t.ws.isSome = true)
    (hstr : t.reader.needsStream = true → t.ws.isSome = true) : Consistent t := by
  refine ⟨by simpa [hstop, hreq] using hc.requested, by simp [hm], ?_, hloc, hcon, hstr,
    ?_, by simpa [hstop, hws] using hc.closed⟩
  · intro hpub
    simp [Reader.holdsMutex_of_publishing hpub] at hm
  · intro hdrop
    simp [hdrop, Reader.holdsMutex] at hm

theorem consistent_closeSocket (hc : Consistent s) (hs : s.stopper = .locked) :
    Consistent { s with ws := s.ws.map fun _ => .closed, stopper := .returned } := by
  refine ⟨by simpa [hs] using hc.requested, by simp, ?_, hc.localOpen, ?_, ?_, hc.notDropped,
    ?_⟩
  · intro hpub
    exact absurd hs (hc.exclusive (Reader.holdsMutex_of_publishing hpub))
  · simpa using hc.connected
  · simpa using hc.stream
  · cases s.ws <;> simp

theorem consistent_step (h : Step cfg parse s a t) (hc : Consistent s) : Consistent t := by
  cases h with
  | move hr hm =>
    subst hr
    exact consistent_move hm hc
  | emplace hr =>
    have hopen := hc.publishing (by simp [hr, Reader.publishing])
    have hfree := hc.exclusive (by simp [hr, Reader.holdsMutex])
    have hlocal := hc.localOpen (by simp [hr, Reader.hasLocal])
    exact ⟨hc.requested, fun _ => hfree, fun _ => hopen, by simp [State.setReader, Reader.hasLocal],
      by simp [hlocal], by simp [hlocal], by simp [State.setReader], fun h => absurd h hopen⟩
  | setConnected hr | countReconnect hr =>
    have hws := hc.stream (by simp [hr, Reader.needsStream])
    exact hc.leave rfl rfl rfl rfl (by simp [State.setReader, Reader.hasLocal]) (fun _ => hws)
      (fun _ => hws)
  | connectThrew _ | readError _ | dropConnected _ =>
    exact hc.leave rfl rfl rfl rfl (by simp [State.setReader, Reader.hasLocal]) (by simp)
      (by simp [State.setReader, Reader.needsStream])
  | resolved _ =>
    exact hc.leave rfl rfl rfl rfl (fun _ => rfl) hc.connected
      (by simp [State.setReader, Reader.needsStream])
  | hostNameRefused _ | stopSeen _ _ | notConnected _ _ | connectOnce _ _ | discard _ _ | sleep _
    | frame _ | countReceived _ | countMalformed _ | deliver _ =>
    exact hc.leave rfl rfl rfl rfl (by simp [State.setReader, Reader.hasLocal]) hc.connected
      (by simp [State.setReader, Reader.needsStream])
  | requestStop hs =>
    exact ⟨by simp, by simp, by simp, hc.localOpen, hc.connected, hc.stream, hc.notDropped,
      by simp⟩
  | lockStop hs hm =>
    refine ⟨?_, by simp [hm], by simp, hc.localOpen, hc.connected, hc.stream, hc.notDropped,
      by simp⟩
    simpa [hs] using hc.requested
  | closeSocket hs => exact consistent_closeSocket hc hs

theorem consistent_reachable (h : Reachable (Step cfg parse) initial s) : Consistent s :=
  h.invariant consistent_initial fun hc hstep => consistent_step hstep hc

end LiveSource

end TickForge
