import Mathlib.Data.List.ReduceOption
import TickForge.LiveSource.Stop

/-! The calls of `next()` as one stream of events, whatever becomes of the connections. -/
namespace TickForge.LiveSource

open ByteString Transition

variable {cfg : LiveSourceConfig} {parse : Bytes → Option MarketEvent} {s t : State}
  {a : Action} {r pc : Reader}

/-- What a frame is to the caller. -/
def decode (parse : Bytes → Option MarketEvent) (frame : Bytes × Int64) : Option MarketEvent :=
  (parse frame.1).map (·.live frame.2)

/-- The events of the calls that returned true. -/
def State.events (s : State) : List MarketEvent := s.returns.reduceOption

/-- The event of a frame that has been read and not returned yet. -/
def Reader.pending (parse : Bytes → Option MarketEvent) : Reader → Option MarketEvent
  | .countReceived raw t | .parse raw t => decode parse (raw, t)
  | .deliver e => some e
  | _ => none

/-- Between the two counter updates of a frame, or between the count and the return. -/
def Reader.counting : Reader → Bool
  | .parse _ _ | .countMalformed | .deliver _ => true
  | _ => false

/-- Every frame is accounted for, and so is every connection. -/
structure Accounted (parse : Bytes → Option MarketEvent) (s : State) : Prop where
  frames : s.events ++ (s.reader.pending parse).toList = s.frames.filterMap (decode parse)
  received : s.messagesReceived =
    s.messagesMalformed + s.events.length + s.reader.counting.toNat
  connects : s.connects =
    s.reconnects + s.hadConnectedOnce.toNat + (decide (s.reader = .countReconnect)).toNat
  first : s.hadConnectedOnce = false → s.reconnects = 0
  out : s.out = s.events.getLastD {}
  refused : none ∈ s.returns → s.stopRequested = true

theorem accounted_initial : Accounted parse initial := by
  constructor <;> simp [initial, State.events, Reader.pending, Reader.counting,
    List.reduceOption]

theorem Move.keeps (h : Move parse s r pc) :
    pc.pending parse = r.pending parse ∧ pc.counting = r.counting ∧
      pc ≠ .countReconnect ∧ r ≠ .countReconnect := by
  cases h with
  | threw hr => cases r <;> simp_all [Reader.throws, Reader.pending, Reader.counting]
  | malformed hp | event hp => simp [Reader.pending, Reader.counting, decode, hp]
  | _ => simp [Reader.pending, Reader.counting]

theorem Reader.testsStop_keeps (parse : Bytes → Option MarketEvent)
    (h : r.testsStop = true) :
    r.pending parse = none ∧ r.counting = false ∧ r ≠ .countReconnect := by
  cases r <;> simp_all [Reader.testsStop, Reader.pending, Reader.counting]

/-- A step that touches no counter and no frame. -/
theorem Accounted.keep (ha : Accounted parse s) (hreturns : t.returns = s.returns)
    (hout : t.out = s.out) (hframes : t.frames = s.frames)
    (hreceived : t.messagesReceived = s.messagesReceived)
    (hmalformed : t.messagesMalformed = s.messagesMalformed)
    (hconnects : t.connects = s.connects) (hreconnects : t.reconnects = s.reconnects)
    (hhad : t.hadConnectedOnce = s.hadConnectedOnce)
    (hstop : s.stopRequested = true → t.stopRequested = true)
    (hpending : t.reader.pending parse = s.reader.pending parse)
    (hcounting : t.reader.counting = s.reader.counting)
    (hreader : t.reader = .countReconnect ↔ s.reader = .countReconnect) :
    Accounted parse t := by
  obtain ⟨hf, hr, hcs, hfi, ho, href⟩ := ha
  refine ⟨?_, ?_, ?_, ?_, ?_, ?_⟩
  · simpa [State.events, hreturns, hpending, hframes] using hf
  · simpa [State.events, hreturns, hreceived, hmalformed, hcounting] using hr
  · simpa [hconnects, hreconnects, hhad, hreader] using hcs
  · simpa [hhad, hreconnects] using hfi
  · simpa [State.events, hout, hreturns] using ho
  · intro hn
    exact hstop (href (hreturns ▸ hn))

theorem accounted_step (h : Step cfg parse s a t) (ha : Accounted parse s) :
    Accounted parse t := by
  cases h with
  | move hr hm =>
    subst hr
    obtain ⟨hp, hcount, hne, hne'⟩ := hm.keeps
    exact ha.keep rfl rfl rfl rfl rfl rfl rfl rfl id hp hcount
      ⟨fun h => absurd h hne, fun h => absurd h hne'⟩
  | requestStop _ | lockStop _ _ | closeSocket _ =>
    exact ha.keep rfl rfl rfl rfl rfl rfl rfl rfl (by simp) rfl rfl Iff.rfl
  | notConnected hr _ | connectOnce hr _ | discard hr _ | resolved hr | hostNameRefused hr
    | emplace hr | connectThrew hr | sleep hr | dropConnected hr | readError hr =>
    refine ha.keep rfl rfl rfl rfl rfl rfl rfl rfl id ?_ ?_ ?_ <;>
      simp [hr, State.setReader, Reader.pending, Reader.counting]
  | stopSeen hr hs =>
    obtain ⟨hp, hcount, hne⟩ := Reader.testsStop_keeps parse hr
    obtain ⟨hf, hrec, hcs, hfi, ho, -⟩ := ha
    rw [hp] at hf
    rw [hcount] at hrec
    refine ⟨?_, ?_, ?_, hfi, ?_, fun _ => hs⟩
    · simpa [State.events, List.reduceOption, State.setReader, Reader.pending] using hf
    · simpa [State.events, List.reduceOption, State.setReader, Reader.counting] using hrec
    · simpa [State.setReader, hne] using hcs
    · simpa [State.events, List.reduceOption, State.setReader] using ho
  | setConnected hr =>
    obtain ⟨hf, hrec, hcs, hfi, ho, href⟩ := ha
    rw [hr] at hf hrec hcs
    refine ⟨hf, hrec, ?_, hfi, ho, href⟩
    simpa [State.setReader] using hcs
  | countReconnect hr =>
    obtain ⟨hf, hrec, hcs, hfi, ho, href⟩ := ha
    rw [hr] at hf hrec hcs
    refine ⟨hf, hrec, ?_, by simp, ho, href⟩
    cases hh : s.hadConnectedOnce with
    | false => simpa [State.setReader, hh, hfi hh] using hcs
    | true => simpa [State.setReader, hh] using hcs
  | frame raw ingestTime hr =>
    obtain ⟨hf, hrec, hcs, hfi, ho, href⟩ := ha
    rw [hr] at hf hrec hcs
    refine ⟨?_, hrec, hcs, hfi, ho, href⟩
    simp only [List.filterMap_append, ← hf]
    cases hd : decode parse (raw, ingestTime) <;>
      simp [State.setReader, State.events, Reader.pending, hd]
  | countReceived hr =>
    obtain ⟨hf, hrec, hcs, hfi, ho, href⟩ := ha
    rw [hr] at hf hrec hcs
    refine ⟨hf, ?_, hcs, hfi, ho, href⟩
    simpa [State.setReader, State.events, Reader.counting] using hrec
  | countMalformed hr =>
    obtain ⟨hf, hrec, hcs, hfi, ho, href⟩ := ha
    rw [hr] at hf hrec hcs
    refine ⟨hf, ?_, hcs, hfi, ho, href⟩
    simp [State.setReader, State.events, Reader.counting] at hrec ⊢
    omega
  | deliver hr =>
    obtain ⟨hf, hrec, hcs, hfi, ho, href⟩ := ha
    rw [hr] at hf hrec hcs
    refine ⟨?_, ?_, hcs, hfi, ?_, ?_⟩
    · simpa [State.events, List.reduceOption, State.setReader, Reader.pending] using hf
    · simpa [State.events, List.reduceOption, State.setReader, Reader.counting,
        Nat.add_assoc] using hrec
    · simp [State.events, List.reduceOption]
    · simpa [State.setReader] using href

theorem accounted_reachable (h : Reachable (Step cfg parse) initial s) : Accounted parse s :=
  h.invariant accounted_initial fun ha hstep => accounted_step hstep ha

theorem Accounted.reconnects (ha : Accounted parse s) (hr : s.reader ≠ .countReconnect) :
    s.reconnects = s.connects - 1 := by
  obtain ⟨-, -, hcs, hfi, -, -⟩ := ha
  cases hh : s.hadConnectedOnce with
  | false =>
    have hzero := hfi hh
    simp [hh, hr] at hcs
    omega
  | true =>
    simp [hh, hr] at hcs
    omega

theorem Accounted.source (ha : Accounted parse s) {e : MarketEvent} (he : e ∈ s.events) :
    e.source = utf8 "live:binance" := by
  have hmem : e ∈ s.frames.filterMap (decode parse) := by
    rw [← ha.frames]
    exact List.mem_append_left _ he
  obtain ⟨frame, -, hframe⟩ := List.mem_filterMap.mp hmem
  obtain ⟨e', -, rfl⟩ := Option.map_eq_some_iff.mp hframe
  rfl

/-- The events returned are those of the frames that were read, up to the one that the call
in progress has in hand. Counters, `ws_` and the returns agree with what has happened. -/
theorem reconnection_transparent (cfg : LiveSourceConfig) (parse : Bytes → Option MarketEvent)
    {s : State} (h : Reachable (Step cfg parse) initial s) :
    s.events ++ (s.reader.pending parse).toList = s.frames.filterMap (decode parse) ∧
    s.out = s.events.getLastD {} ∧
    (∀ e ∈ s.events, e.source = utf8 "live:binance") ∧
    (s.reader.counting = false →
      s.messagesReceived = s.messagesMalformed + s.events.length) ∧
    (s.reader ≠ .countReconnect → s.reconnects = s.connects - 1) ∧
    (s.connected = true → s.ws.isSome = true) ∧ s.reader ≠ .dropConnected ∧
    (none ∈ s.returns → s.stopper ≠ .notCalled) := by
  have hc := consistent_reachable h
  have ha := accounted_reachable h
  refine ⟨ha.frames, ha.out, fun e he => ha.source he, ?_, ha.reconnects, hc.connected,
    hc.notDropped, ?_⟩
  · intro hr
    simpa [hr] using ha.received
  · intro hn
    exact hc.requested.mp (ha.refused hn)

/-- A frame that does not parse, a disconnect, and a frame that does. -/
theorem reconnection_transparent_one_disconnect :
    ∃ s : State, Reachable (Step {} fun raw => if raw = [] then none else some {}) initial s ∧
      s.frames = [([], 5), ([0], 7)] ∧ s.events = [MarketEvent.live {} 7] ∧
      s.messagesReceived = s.messagesMalformed + 1 ∧ s.connects = 2 ∧ s.reconnects = 1 := by
  let parse : Bytes → Option MarketEvent := fun raw => if raw = [] then none else some {}
  have h₀ : Reachable (Step {} parse) initial inRead := inRead_reachable.mono fun h => h.1
  have h₁ := h₀.snoc (.frame [] 5 rfl)
  have h₂ := h₁.snoc (.countReceived rfl)
  have h₃ := h₂.snoc (.move rfl (.malformed rfl))
  have h₄ := h₃.snoc (.countMalformed rfl)
  have h₅ := h₄.snoc (.move rfl (.loop rfl))
  have h₆ := h₅.snoc (.move rfl (.isConnected rfl))
  have h₇ := h₆.snoc (.move rfl (.lockStream (by decide)))
  have h₈ := h₇.snoc (.move rfl (.hasStream rfl))
  have h₉ := h₈.snoc (.move rfl .readFailed)
  have h₁₀ := h₉.snoc (.readError rfl)
  have h₁₁ := h₁₀.snoc (.move rfl (.reconnect rfl))
  have h₁₂ := h₁₁.trans ((reconnected_reachable rfl rfl rfl rfl).mono fun h => h.1)
  have h₁₃ := h₁₂.snoc (.frame [0] 7 rfl)
  have h₁₄ := h₁₃.snoc (.countReceived rfl)
  have h₁₅ := h₁₄.snoc (.move rfl (.event rfl))
  have h₁₆ := h₁₅.snoc (.deliver rfl)
  obtain ⟨hevents, -, -, hreceived, hreconnects, -⟩ := reconnection_transparent {} parse h₁₆
  exact ⟨_, h₁₆, rfl, (List.append_nil _).symm.trans hevents, hreceived rfl, rfl,
    hreconnects (by decide)⟩

end TickForge.LiveSource
