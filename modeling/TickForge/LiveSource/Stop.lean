import TickForge.LiveSource.Basic

/-! What a `stop()` reaches, and what can still happen after it has returned. -/
namespace TickForge.LiveSource

open ByteString Transition

variable {cfg : LiveSourceConfig} {parse : Bytes → Option MarketEvent} {s t u : State}
  {a : Action} {r pc : Reader}

/-- Between the loop test of `ensureConnected()` and the end of the WebSocket handshake. -/
def Reader.connecting : Reader → Bool
  | .resolve | .setHostName | .connect | .tlsHandshake | .wsHandshake => true
  | _ => false

/-- Inside a network operation on a socket that nobody has closed. -/
def BlockedOpen (s : State) : Prop :=
  match s.reader with
  | .connect | .tlsHandshake | .wsHandshake => s.localWs = some .opened
  | .read => s.ws = some .opened
  | _ => False

/-- `stop()` sets its flag while the reader is not connecting. -/
def Timely (s : State) : Action → Prop
  | .requestStop => s.reader.connecting = false
  | _ => True

def TimelyStep (cfg : LiveSourceConfig) (parse : Bytes → Option MarketEvent) (s : State)
    (a : Action) (t : State) : Prop :=
  Step cfg parse s a t ∧ Timely s a

theorem Move.connecting (h : Move parse s r pc) (hpc : pc.connecting = true) :
    r.connecting = true := by
  cases h <;> simp_all [Reader.connecting]

/-- A new attempt to connect begins only before the flag is set. -/
theorem connecting_step (h : Step cfg parse s a t) (ht : t.reader.connecting = true) :
    s.reader.connecting = true ∨ t.stopRequested = false := by
  cases h with
  | move hr hm =>
    subst hr
    exact Or.inl (hm.connecting ht)
  | connectOnce _ hs => exact Or.inr hs
  | resolved hr => exact Or.inl (by simp [hr, Reader.connecting])
  | requestStop _ | lockStop _ _ | closeSocket _ => exact Or.inl ht
  | _ => simp [State.setReader, Reader.connecting] at ht

theorem stopRequested_step (h : Step cfg parse s a t) :
    t.stopRequested = s.stopRequested ∨ a = .requestStop := by
  cases h with
  | requestStop _ => exact Or.inr rfl
  | _ => exact Or.inl rfl

/-- Once the flag is set the reader is not connecting. -/
def Quiet (s : State) : Prop := s.stopRequested = true → s.reader.connecting = false

theorem quiet_step (h : TimelyStep cfg parse s a t) (hq : Quiet s) : Quiet t := by
  obtain ⟨hstep, htimely⟩ := h
  intro hreq
  by_contra hcon
  rw [Bool.not_eq_false] at hcon
  rcases connecting_step hstep hcon with hs | hs
  · rcases stopRequested_step hstep with heq | rfl
    · simp [hq (heq ▸ hreq)] at hs
    · simp [Timely, hs] at htimely
  · simp [hs] at hreq

theorem quiet_reachable (h : Reachable (TimelyStep cfg parse) initial s) : Quiet s :=
  h.invariant (by simp [Quiet, initial]) fun hq hstep => quiet_step hstep hq

/-- The socket of a published stream is closed, and that of a local one is not there. -/
theorem Consistent.not_blockedOpen (hc : Consistent s) (hq : Quiet s)
    (hs : s.stopper = .returned) : ¬ BlockedOpen s := by
  have hreq : s.stopRequested = true := hc.requested.mpr (by simp [hs])
  have hidle := hq hreq
  intro hb
  unfold BlockedOpen at hb
  split at hb
  all_goals first
    | exact hc.closed hs hb
    | simp_all [Reader.connecting]

/-- A reader that is connecting gets into `net::connect` or a handshake. -/
theorem Consistent.blocks (hc : Consistent s) (hr : s.reader.connecting = true) :
    ∃ u, Reachable (Step cfg parse) s u ∧ u.stopper = s.stopper ∧ BlockedOpen u := by
  have hhere : ∀ {pc}, s.reader = pc → pc.hasLocal = true → s.localWs = some .opened := by
    intro pc hpc hl
    exact hc.localOpen (hpc ▸ hl)
  cases hpc : s.reader with
  | resolve =>
    have h₁ : Reachable (Step cfg parse) s _ := (Reachable.refl s).snoc (.resolved hpc)
    exact ⟨_, h₁.snoc (.move rfl .hostNameSet), rfl, rfl⟩
  | setHostName =>
    have h₁ : Reachable (Step cfg parse) s _ := (Reachable.refl s).snoc (.move hpc .hostNameSet)
    exact ⟨_, h₁, rfl, hhere hpc rfl⟩
  | connect | tlsHandshake | wsHandshake =>
    refine ⟨s, Reachable.refl s, rfl, ?_⟩
    rw [BlockedOpen, hpc]
    exact hhere hpc rfl
  | _ => simp [hpc, Reader.connecting] at hr

theorem Reader.not_holdsMutex (h : r.connecting = true) : r.holdsMutex = false := by
  cases r <;> simp_all [Reader.connecting, Reader.holdsMutex]

theorem stop_misses (hc : Consistent s) (h : Step cfg parse s .requestStop t)
    (hr : s.reader.connecting = true) :
    ∃ u, Reachable (Step cfg parse) t u ∧ u.stopper = .returned ∧ BlockedOpen u := by
  have ht := consistent_step h hc
  cases h with
  | requestStop hs =>
    have h₁ : Reachable (Step cfg parse) { s with stopRequested := true, stopper := .flagged } _ :=
      (Reachable.refl _).snoc (.lockStop rfl (Reader.not_holdsMutex hr))
    have h₂ := h₁.snoc (.closeSocket rfl)
    have hc₂ := h₂.invariant ht fun hc hstep => consistent_step hstep hc
    obtain ⟨u, hu, hstop, hb⟩ := hc₂.blocks hr
    exact ⟨u, h₂.trans hu, hstop, hb⟩

/-- A `stop()` whose flag is set while the reader is not connecting leaves it in no network
operation on an open socket; any other one may. -/
theorem timely_stop_interrupts (cfg : LiveSourceConfig) (parse : Bytes → Option MarketEvent) :
    (∀ s, Reachable (TimelyStep cfg parse) initial s → s.stopper = .returned →
      ¬ BlockedOpen s) ∧
    ∀ s t, Reachable (Step cfg parse) initial s → Step cfg parse s .requestStop t →
      ¬ Timely s .requestStop →
      ∃ u, Reachable (Step cfg parse) t u ∧ u.stopper = .returned ∧ BlockedOpen u := by
  constructor
  · intro s h hs
    have hc := consistent_reachable (h.mono fun hstep => hstep.1)
    exact hc.not_blockedOpen (quiet_reachable h) hs
  · intro s t h hstep hlate
    refine stop_misses (consistent_reachable h) hstep ?_
    simpa [Timely] using hlate

/-- The first call of `next()`, inside `net::connect`. -/
def inConnect : State where
  reader := .connect
  stopper := .notCalled
  stopRequested := false
  connected := false
  hadConnectedOnce := false
  ws := none
  localWs := some .opened
  backoff := 1000
  messagesReceived := 0
  messagesMalformed := 0
  reconnects := 0
  out := {}
  connects := 0
  discarded := 0
  frames := []
  returns := []

theorem inConnect_reachable : Reachable (TimelyStep {} parse) initial inConnect := by
  have h₁ : Reachable (TimelyStep {} parse) initial _ :=
    (Reachable.refl _).snoc ⟨.move rfl .call, trivial⟩
  have h₂ := h₁.snoc ⟨.move rfl (.loop rfl), trivial⟩
  have h₃ := h₂.snoc ⟨.notConnected rfl rfl, trivial⟩
  have h₄ := h₃.snoc ⟨.connectOnce rfl rfl, trivial⟩
  have h₅ := h₄.snoc ⟨.resolved rfl, trivial⟩
  exact h₅.snoc ⟨.move rfl .hostNameSet, trivial⟩

/-- From the loop test of `next()` into `read` on a new stream. -/
def State.reconnected (cfg : LiveSourceConfig) (s : State) : State :=
  { s with
    reader := .read
    connected := true
    hadConnectedOnce := true
    ws := some .opened
    localWs := none
    backoff := cfg.initialBackoff
    reconnects := if s.hadConnectedOnce then s.reconnects + 1 else s.reconnects
    connects := s.connects + 1 }

theorem reconnected_reachable (hr : s.reader = .nextTest) (hs : s.stopper = .notCalled)
    (hreq : s.stopRequested = false) (hcon : s.connected = false) :
    Reachable (TimelyStep cfg parse) s (s.reconnected cfg) := by
  have hfree : s.stopper ≠ .locked := by simp [hs]
  have h₁ : Reachable (TimelyStep cfg parse) s _ :=
    (Reachable.refl s).snoc ⟨.move hr (.loop hreq), trivial⟩
  have h₂ := h₁.snoc ⟨.notConnected rfl hcon, trivial⟩
  have h₃ := h₂.snoc ⟨.connectOnce rfl hreq, trivial⟩
  have h₄ := h₃.snoc ⟨.resolved rfl, trivial⟩
  have h₅ := h₄.snoc ⟨.move rfl .hostNameSet, trivial⟩
  have h₆ := h₅.snoc ⟨.move rfl .tcpConnected, trivial⟩
  have h₇ := h₆.snoc ⟨.move rfl .tlsDone, trivial⟩
  have h₈ := h₇.snoc ⟨.move rfl .wsDone, trivial⟩
  have h₉ := h₈.snoc ⟨.move rfl (.lockPublish hfree), trivial⟩
  have h₁₀ := h₉.snoc ⟨.move rfl (.publish hreq), trivial⟩
  have h₁₁ := h₁₀.snoc ⟨.emplace rfl, trivial⟩
  have h₁₂ := h₁₁.snoc ⟨.setConnected rfl, trivial⟩
  have h₁₃ := h₁₂.snoc ⟨.countReconnect rfl, trivial⟩
  have h₁₄ := h₁₃.snoc ⟨.move rfl (.lockStream hfree), trivial⟩
  exact h₁₄.snoc ⟨.move rfl (.hasStream rfl), trivial⟩

/-- The first call of `next()`, inside `read`. -/
def inRead : State := (initial.setReader .nextTest).reconnected {}

theorem inRead_reachable : Reachable (TimelyStep {} parse) initial inRead := by
  have h₁ : Reachable (TimelyStep {} parse) initial (initial.setReader .nextTest) :=
    (Reachable.refl _).snoc ⟨.move rfl .call, trivial⟩
  exact h₁.trans (reconnected_reachable rfl rfl rfl rfl)

/-- A `stop()` during a read reaches it, and one during a connect does not. -/
theorem timely_stop_interrupts_in_read :
    (∃ s : State, Reachable (TimelyStep {} fun _ => none) initial s ∧ s.reader = .read ∧
      s.stopper = .returned ∧ ¬ BlockedOpen s) ∧
    ∃ t u : State, Step {} (fun _ => none) inConnect .requestStop t ∧
      Reachable (Step {} fun _ => none) t u ∧ u.stopper = .returned ∧ BlockedOpen u := by
  obtain ⟨hreach, hmiss⟩ := timely_stop_interrupts {} fun _ => none
  constructor
  · have h₁ := (@inRead_reachable fun _ => none).snoc ⟨.requestStop rfl, rfl⟩
    have h₂ := h₁.snoc ⟨.lockStop rfl rfl, trivial⟩
    have h₃ := h₂.snoc ⟨.closeSocket rfl, trivial⟩
    exact ⟨_, h₃, rfl, rfl, hreach _ h₃ rfl⟩
  · have hstep : Step {} (fun _ => none) inConnect .requestStop _ := .requestStop rfl
    obtain ⟨u, hu, hs, hb⟩ := hmiss _ _ (inConnect_reachable.mono fun h => h.1) hstep (by
      simp [Timely, inConnect, Reader.connecting])
    exact ⟨_, u, hstep, hu, hs, hb⟩

/-- `stop()` has returned while `net::connect` waits on a socket that it has not seen. -/
theorem connect_left_open :
    ∃ s : State, Reachable (Step {} fun _ => none) initial s ∧ s.stopper = .returned ∧
      s.reader = .connect ∧ s.localWs = some .opened ∧ BlockedOpen s := by
  have h₀ : Reachable (Step {} fun _ => none) initial inConnect :=
    inConnect_reachable.mono fun h => h.1
  have h₁ := h₀.snoc (.requestStop rfl)
  have h₂ := h₁.snoc (.lockStop rfl rfl)
  have h₃ := h₂.snoc (.closeSocket rfl)
  exact ⟨_, h₃, rfl, rfl, rfl, rfl⟩

/-- Nothing is published after `stop()` has returned. -/
theorem returned_step (h : Step cfg parse s a t) (hc : Consistent s)
    (hs : s.stopper = .returned) :
    t.stopper = .returned ∧ t.ws = s.ws ∧ t.connects = s.connects := by
  have hpub : s.reader.publishing = false := by
    by_contra hp
    exact hc.publishing (by simpa using hp) hs
  cases h with
  | emplace hr | setConnected hr => simp [hr, Reader.publishing] at hpub
  | requestStop hr | lockStop hr _ | closeSocket hr => simp [hs] at hr
  | _ => exact ⟨hs, rfl, rfl⟩

theorem returned_reachable (hc : Consistent s) (hs : s.stopper = .returned)
    (h : Reachable (Step cfg parse) s t) :
    Consistent t ∧ t.stopper = .returned ∧ t.ws = s.ws ∧ t.connects = s.connects := by
  refine h.invariant (P := fun t => Consistent t ∧ t.stopper = .returned ∧ t.ws = s.ws ∧
    t.connects = s.connects) ⟨hc, hs, rfl, rfl⟩ ?_
  rintro t a u ⟨hct, hst, hws, hcs⟩ hstep
  obtain ⟨hsu, hwu, hcu⟩ := returned_step hstep hct hst
  exact ⟨consistent_step hstep hct, hsu, hwu.trans hws, hcu.trans hcs⟩

/-- Between two calls, or at the first test of a call. -/
def Reader.entering : Reader → Bool
  | .idle | .nextTest => true
  | _ => false

/-- A call of `next()` returns at most once. -/
theorem returns_step (h : Step cfg parse s a t) :
    t.returns = s.returns ∨ ∃ x, t.returns = s.returns ++ [x] ∧ t.reader = .idle := by
  cases h with
  | stopSeen _ _ | deliver _ => exact Or.inr ⟨_, rfl, rfl⟩
  | _ => exact Or.inl rfl

theorem Move.entering (h : Move parse s r pc) (hr : r.entering = true)
    (hs : s.stopRequested = true) : pc.entering = true := by
  cases h with
  | threw hr' => cases r <;> simp_all [Reader.entering, Reader.throws]
  | _ => simp_all [Reader.entering]

/-- Once the flag is set, a call that has got no further than its first test returns false. -/
theorem entering_step (h : Step cfg parse s a t) (hs : s.stopRequested = true)
    (hr : s.reader.entering = true) :
    t.reader.entering = true ∧ (t.returns = s.returns ∨ t.returns = s.returns ++ [none]) := by
  cases h with
  | move hpc hm =>
    subst hpc
    exact ⟨hm.entering hr hs, Or.inl rfl⟩
  | stopSeen _ _ => exact ⟨rfl, Or.inr rfl⟩
  | requestStop _ | lockStop _ _ | closeSocket _ => exact ⟨hr, Or.inl rfl⟩
  | connectOnce hpc _ | notConnected hpc _ | discard hpc _ => simp [hpc, Reader.entering] at hr
  | resolved hpc | hostNameRefused hpc | emplace hpc | setConnected hpc | connectThrew hpc
    | sleep hpc | countReconnect hpc | dropConnected hpc | frame _ _ hpc | readError hpc
    | countReceived hpc | countMalformed hpc | deliver hpc => simp [hpc, Reader.entering] at hr

/-- How many calls that are in progress may still return true. -/
def State.inProgress (s : State) : ℕ := if s.reader = .idle then 0 else 1

/-- The returns since `s`: after those of the call in progress, only false. -/
structure Late (s t : State) (tail : List (Option MarketEvent)) : Prop where
  returns : t.returns = s.returns ++ tail
  entering : s.inProgress ≤ tail.length → t.reader.entering = true
  later : ∀ x ∈ tail.drop s.inProgress, x = none

theorem late_refl (s : State) : Late s s [] where
  returns := by simp
  entering h := by
    by_cases hr : s.reader = .idle
    · simp [hr, Reader.entering]
    · simp [State.inProgress, hr] at h
  later := by simp

theorem late_step {tail : List (Option MarketEvent)} (h : Step cfg parse t a u)
    (hs : t.stopRequested = true) (hl : Late s t tail) : ∃ tail, Late s u tail := by
  obtain ⟨hret, hent, hlater⟩ := hl
  by_cases hle : s.inProgress ≤ tail.length
  · obtain ⟨hu, heq | heq⟩ := entering_step h hs (hent hle)
    · exact ⟨tail, heq.trans hret, fun _ => hu, hlater⟩
    · refine ⟨tail ++ [none], by simp [heq, hret], fun _ => hu, ?_⟩
      rw [List.drop_append_of_le_length hle]
      intro x hx
      rcases List.mem_append.mp hx with hx | hx
      · exact hlater x hx
      · simpa using hx
  · have hone : s.inProgress ≤ 1 := by
      rw [State.inProgress]
      split <;> omega
    obtain rfl : tail = [] := by
      rw [← List.length_eq_zero_iff]
      omega
    rcases returns_step h with heq | ⟨x, heq, hidle⟩
    · exact ⟨[], heq.trans hret, fun h => absurd h hle, hlater⟩
    · refine ⟨[x], by simp [heq, hret], fun _ => by simp [hidle, Reader.entering], ?_⟩
      rw [List.drop_eq_nil_of_le (by simp at hle ⊢; omega)]
      simp

theorem late_reachable (hc : Consistent s) (hs : s.stopper = .returned)
    (h : Reachable (Step cfg parse) s t) : ∃ tail, Late s t tail := by
  have hboth : Consistent t ∧ t.stopper = .returned ∧ ∃ tail, Late s t tail := by
    refine h.invariant (P := fun t => Consistent t ∧ t.stopper = .returned ∧
      ∃ tail, Late s t tail) ⟨hc, hs, [], late_refl s⟩ ?_
    rintro t a u ⟨hct, hst, tail, hl⟩ hstep
    have hreq : t.stopRequested = true := hct.requested.mpr (by simp [hst])
    exact ⟨consistent_step hstep hct, (returned_step hstep hct hst).1, late_step hstep hreq hl⟩
  exact hboth.2.2

/-- A connection has been dropped, and the call of `next()` is about to return false or has. -/
structure Dropping (s : State) : Prop where
  requested : s.stopRequested = true
  reader : s.reader = .connectFailed ∨ s.reader.entering = true

theorem reconnects_step (h : Step cfg parse s a t) :
    t.reconnects = s.reconnects ∨ s.reader = .countReconnect := by
  cases h with
  | countReconnect hr => exact Or.inr hr
  | _ => exact Or.inl rfl

theorem dropping_step (h : Step cfg parse s a t) (hd : Dropping s) : Dropping t := by
  have hreq : t.stopRequested = true := by
    cases h with
    | requestStop _ => rfl
    | _ => exact hd.requested
  refine ⟨hreq, ?_⟩
  rcases hd.reader with hr | hr
  · cases h with
    | move hpc hm =>
      subst hpc
      rw [hr] at hm
      cases hm with
      | threw hthrows => simp [Reader.throws] at hthrows
      | retry hrun => simp [hd.requested] at hrun
    | stopSeen _ _ => exact Or.inr rfl
    | requestStop _ | lockStop _ _ | closeSocket _ => exact Or.inl hr
    | connectOnce hpc _ | notConnected hpc _ | discard hpc _ => simp [hr] at hpc
    | resolved hpc | hostNameRefused hpc | emplace hpc | setConnected hpc | connectThrew hpc
      | sleep hpc | countReconnect hpc | dropConnected hpc | frame _ _ hpc | readError hpc
      | countReceived hpc | countMalformed hpc | deliver hpc => simp [hr] at hpc
  · exact Or.inr (entering_step h hd.requested hr).1

theorem dropping_reachable (hd : Dropping s) (h : Reachable (Step cfg parse) s t) :
    t.reconnects = s.reconnects := by
  have hboth : Dropping t ∧ t.reconnects = s.reconnects := by
    refine h.invariant (P := fun t => Dropping t ∧ t.reconnects = s.reconnects) ⟨hd, rfl⟩ ?_
    rintro t a u ⟨hdt, heq⟩ hstep
    refine ⟨dropping_step hstep hdt, ?_⟩
    rcases reconnects_step hstep with hu | hr
    · exact hu.trans heq
    · rcases hdt.reader with hf | he
      · simp [hf] at hr
      · simp [hr, Reader.entering] at he
  exact hboth.2

theorem discard_step (h : Step cfg parse s a t) (hd : t.discarded ≠ s.discarded) :
    Dropping t ∧ t.reconnects = s.reconnects := by
  cases h with
  | discard _ hs => exact ⟨⟨hs, Or.inl rfl⟩, rfl⟩
  | _ => exact absurd rfl hd

/-- Once `stop()` has returned, `ws_` is empty or closed for good, nothing more is published,
and only the call of `next()` in progress may return true. A connection that was dropped is
never counted. -/
theorem stop_never_lost (cfg : LiveSourceConfig) (parse : Bytes → Option MarketEvent) {s : State}
    (h : Reachable (Step cfg parse) initial s) :
    (s.stopper = .returned → (s.ws = none ∨ s.ws = some .closed) ∧
      ∀ t, Reachable (Step cfg parse) s t → t.ws = s.ws ∧ t.connects = s.connects ∧
        ∃ tail, t.returns = s.returns ++ tail ∧ ∀ x ∈ tail.drop s.inProgress, x = none) ∧
    ∀ a t u, Step cfg parse s a t → t.discarded ≠ s.discarded →
      Reachable (Step cfg parse) t u → u.reconnects = s.reconnects := by
  have hc := consistent_reachable h
  constructor
  · intro hs
    constructor
    · have hclosed := hc.closed hs
      rcases hws : s.ws with _ | _ | _
      · exact Or.inl rfl
      · exact absurd hws hclosed
      · exact Or.inr rfl
    · intro t ht
      obtain ⟨-, -, hws, hcs⟩ := returned_reachable hc hs ht
      obtain ⟨tail, hl⟩ := late_reachable hc hs ht
      exact ⟨hws, hcs, tail, hl.returns, hl.later⟩
  · intro a t u hstep hd hu
    obtain ⟨hdrop, heq⟩ := discard_step hstep hd
    exact (dropping_reachable hdrop hu).trans heq

/-- A frame has been read, and then `stop()` has run. -/
def stoppedInCall : State :=
  { inRead with
    reader := .countReceived [] 5
    stopper := .returned
    stopRequested := true
    ws := some .closed
    frames := [([], 5)] }

theorem stoppedInCall_reachable : Reachable (Step {} parse) initial stoppedInCall := by
  have h₀ : Reachable (Step {} parse) initial inRead := inRead_reachable.mono fun h => h.1
  have h₁ := h₀.snoc (.frame [] 5 rfl)
  have h₂ := h₁.snoc (.requestStop rfl)
  have h₃ := h₂.snoc (.lockStop rfl rfl)
  exact h₃.snoc (.closeSocket rfl)

/-- The flag is set during the handshakes of a new connection. -/
def stoppedInHandshake : State :=
  { inConnect with
    reader := .publishTest
    stopper := .flagged
    stopRequested := true }

theorem stoppedInHandshake_reachable :
    Reachable (Step {} parse) initial stoppedInHandshake := by
  have h₀ : Reachable (Step {} parse) initial inConnect := inConnect_reachable.mono fun h => h.1
  have h₁ := h₀.snoc (.requestStop rfl)
  have h₂ := h₁.snoc (.move rfl .tcpConnected)
  have h₃ := h₂.snoc (.move rfl .tlsDone)
  have h₄ := h₃.snoc (.move rfl .wsDone)
  exact h₄.snoc (.move rfl (.lockPublish (by decide)))

/-- The call in progress returns its event and the next one false; and a connection that
comes up after the flag is set is dropped. -/
theorem stop_never_lost_call_in_progress :
    (∃ t : State, Reachable (Step {} fun _ => some {}) stoppedInCall t ∧
      t.returns = [some (MarketEvent.live {} 5), none] ∧ t.ws = some .closed ∧
      ∃ tail, t.returns = stoppedInCall.returns ++ tail ∧ ∀ x ∈ tail.drop 1, x = none) ∧
    ∃ t : State, Step {} (fun _ => some {}) stoppedInHandshake .reader t ∧ t.discarded = 1 ∧
      ∀ u, Reachable (Step {} fun _ => some {}) t u → u.reconnects = 0 := by
  constructor
  · have h₁ : Reachable (Step {} fun _ => some {}) stoppedInCall _ :=
      (Reachable.refl _).snoc (.countReceived rfl)
    have h₂ := h₁.snoc (.move rfl (.event rfl))
    have h₃ := h₂.snoc (.deliver rfl)
    have h₄ := h₃.snoc (.move rfl .call)
    have h₅ := h₄.snoc (.stopSeen rfl rfl)
    obtain ⟨-, hlater⟩ := (stop_never_lost {} _ stoppedInCall_reachable).1 rfl
    obtain ⟨hws, -, htail⟩ := hlater _ h₅
    exact ⟨_, h₅, rfl, hws, htail⟩
  · have hstep : Step {} (fun _ => some {}) stoppedInHandshake .reader _ := .discard rfl rfl
    obtain ⟨-, hdrop⟩ := stop_never_lost {} (fun _ => some {}) stoppedInHandshake_reachable
    exact ⟨_, hstep, rfl, fun u hu => hdrop _ _ u hstep (by decide) hu⟩

end TickForge.LiveSource
