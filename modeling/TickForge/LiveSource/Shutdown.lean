import TickForge.LiveSource.Ingestion

/-! `requestStop()` then `stop()` while the source is live and every network call returns. -/
namespace TickForge.LiveIngestion

open ByteString Transition
open IngestionPipeline (Call Thread Returned Flow Stopping stepsToReturn)

variable {cfg : Setup} {s t : State} {l l' : LiveSource.State} {b : LiveSource.Action}
  {r pc : LiveSource.Reader} {x : Option Thread × Option LiveSource.Action}
  {live : LiveSourceConfig} {parse : Bytes → Option MarketEvent}

/-- The longest way out of `next()` from each position, with `stop_requested_` set. -/
def readerRank : LiveSource.Reader → ℕ
  | .idle => 0
  | .nextTest | .retryTest | .connectFailed | .readErrorTest | .deliver _ => 1
  | .sleep | .connectThrew | .dropConnected | .readError | .countMalformed | .publishTest => 2
  | .lockPublish | .parse _ _ => 3
  | .wsHandshake | .countReceived _ _ => 4
  | .tlsHandshake | .read => 5
  | .connect | .checkStream => 6
  | .setHostName | .lockStream => 7
  | .resolve | .countReconnect | .ensureConnected => 8
  | .setConnected => 9
  | .emplace => 10

def stopperRank : LiveSource.Stopper → ℕ
  | .flagged => 2
  | .locked => 1
  | _ => 0

/-- A step of the pipeline is worth a whole call of `next()` and one of `stop()`. -/
def liveRank (s : State) : ℕ :=
  12 * IngestionPipeline.rank s.pipeline + readerRank s.live.reader + stopperRank s.live.stopper

theorem readerRank_le (r : LiveSource.Reader) : readerRank r ≤ 10 := by
  cases r <;> simp [readerRank]

theorem stopperRank_le (c : LiveSource.Stopper) : stopperRank c ≤ 2 := by
  cases c <;> simp [stopperRank]

theorem move_readerRank (h : LiveSource.Move parse l r pc) (hs : l.stopRequested = true)
    (hr : r ≠ .idle) : readerRank pc < readerRank r := by
  cases h with
  | call => exact (hr rfl).elim
  | loop h | publish h | retry h | reconnect h => simp [hs] at h
  | threw ht => cases r <;> simp_all [LiveSource.Reader.throws, readerRank]
  | _ => simp [readerRank]

/-- With the flag set every step inside `next()` leads towards its return. -/
theorem readerRank_step (h : LiveSource.Step live parse l b l') (hb : byReader b = true)
    (hs : l.stopRequested = true) (hr : l.reader ≠ .idle) :
    readerRank l'.reader < readerRank l.reader := by
  cases h with
  | move hm hmove =>
    subst hm
    exact move_readerRank hmove hs hr
  | stopSeen ht =>
    cases hr' : l.reader <;>
      simp_all [LiveSource.Reader.testsStop, LiveSource.State.setReader, readerRank]
  | connectOnce _ h => simp [hs] at h
  | requestStop | lockStop | closeSocket => simp [byReader] at hb
  | notConnected h | resolved h | hostNameRefused h | discard h | emplace h | setConnected h
    | connectThrew h | sleep h | countReconnect h | dropConnected h | frame _ _ h | readError h
    | countReceived h | countMalformed h | deliver h =>
    simp [h, LiveSource.State.setReader, readerRank]

theorem stopperRank_step (h : LiveSource.Step live parse l b l') (hb : byReader b = false)
    (hs : inStop l.stopper = true) :
    stopperRank l'.stopper < stopperRank l.stopper ∧ l'.reader = l.reader := by
  cases h with
  | requestStop hn => simp [hn, inStop] at hs
  | lockStop hf | closeSocket hf => simp [hf, stopperRank]
  | _ => simp [byReader] at hb

/-- A pipeline step pays for whatever it does to the source. -/
theorem liveRank_lt (h : IngestionPipeline.rank t.pipeline < IngestionPipeline.rank s.pipeline)
    (hr : readerRank t.live.reader ≤ readerRank s.live.reader + 1)
    (hs : stopperRank t.live.stopper ≤ stopperRank s.live.stopper + 2) :
    liveRank t < liveRank s := by
  unfold liveRank
  omega

theorem liveRank_step (h : Step cfg s x t) (hi : Invariant cfg s) (hs : Stopping s.pipeline) :
    liveRank t < liveRank s := by
  have hpay : ∀ {a}, x.1 = some a →
      IngestionPipeline.rank t.pipeline < IngestionPipeline.rank s.pipeline := fun ha =>
    IngestionPipeline.rank_step contract_obeys (pipeline_visible hi h ha) hs
  cases h with
  | pipeline => exact liveRank_lt (hpay rfl) (by simp) (by simp)
  | start _ hscript =>
    have := hs.noStart
    simp [hscript] at this
  | requestStop _ _ _ hstep =>
    cases hstep with
    | requestStop hn => exact liveRank_lt (hpay rfl) (by simp) (by simp [stopperRank])
  | finishStop hb hst hstep =>
    obtain ⟨hlt, hr⟩ := stopperRank_step hstep hb hst
    simp only [liveRank, hr]
    omega
  | requestStopAgain => exact liveRank_lt (hpay rfl) (by simp) (by simp)
  | callNext _ hr =>
    exact liveRank_lt (hpay rfl) (by simp [LiveSource.State.setReader, readerRank])
      (by simp [LiveSource.State.setReader])
  | inNext ha hb hstep hret =>
    have hreq : s.live.stopRequested = true := by
      rw [hi.coupled.flag]
      exact hs.source (by simp [ha, IngestionPipeline.IngestPC.life])
    have hlt := readerRank_step hstep hb hreq (hi.coupled.inCall.mpr ⟨_, ha⟩)
    obtain ⟨-, -, hstop, -⟩ := returns_same hstep hb hret
    simp only [liveRank, hstop]
    omega
  | nextTrue ha hstep hret =>
    obtain ⟨-, -, hidle, -, hstop⟩ := returns_some hstep hret
    exact liveRank_lt (hpay rfl) (by simp [hidle, readerRank]) (by simp [hstop])
  | nextFalse ha hstep hret =>
    obtain ⟨-, hidle, -, hstop⟩ := returns_none hstep hret
    exact liveRank_lt (hpay rfl) (by simp [hidle, readerRank]) (by simp [hstop])

/-- The thread inside `next()` waits for nothing but `ws_mutex_`. -/
theorem reader_moves (live : LiveSourceConfig) (parse : Bytes → Option MarketEvent)
    (hr : l.reader ≠ .idle) (hs : l.stopper ≠ .locked) :
    ∃ b l', byReader b = true ∧ LiveSource.Step live parse l b l' := by
  cases hp : l.reader with
  | idle => exact (hr hp).elim
  | nextTest =>
    cases hq : l.stopRequested with
    | false => exact ⟨_, _, rfl, .move hp (.loop hq)⟩
    | true => exact ⟨_, _, rfl, .stopSeen (by rw [hp]; rfl) hq⟩
  | ensureConnected =>
    cases hq : l.connected with
    | false => exact ⟨_, _, rfl, .notConnected hp hq⟩
    | true => exact ⟨_, _, rfl, .move hp (.isConnected hq)⟩
  | retryTest =>
    cases hq : l.stopRequested with
    | false => exact ⟨_, _, rfl, .connectOnce hp hq⟩
    | true => exact ⟨_, _, rfl, .stopSeen (by rw [hp]; rfl) hq⟩
  | resolve => exact ⟨_, _, rfl, .resolved hp⟩
  | setHostName => exact ⟨_, _, rfl, .move hp .hostNameSet⟩
  | connect => exact ⟨_, _, rfl, .move hp .tcpConnected⟩
  | tlsHandshake => exact ⟨_, _, rfl, .move hp .tlsDone⟩
  | wsHandshake => exact ⟨_, _, rfl, .move hp .wsDone⟩
  | lockPublish => exact ⟨_, _, rfl, .move hp (.lockPublish hs)⟩
  | publishTest =>
    cases hq : l.stopRequested with
    | false => exact ⟨_, _, rfl, .move hp (.publish hq)⟩
    | true => exact ⟨_, _, rfl, .discard hp hq⟩
  | emplace => exact ⟨_, _, rfl, .emplace hp⟩
  | setConnected => exact ⟨_, _, rfl, .setConnected hp⟩
  | connectThrew => exact ⟨_, _, rfl, .connectThrew hp⟩
  | connectFailed =>
    cases hq : l.stopRequested with
    | false => exact ⟨_, _, rfl, .move hp (.retry hq)⟩
    | true => exact ⟨_, _, rfl, .stopSeen (by rw [hp]; rfl) hq⟩
  | sleep => exact ⟨.sleep l.backoff, _, rfl, .sleep hp⟩
  | countReconnect => exact ⟨_, _, rfl, .countReconnect hp⟩
  | lockStream => exact ⟨_, _, rfl, .move hp (.lockStream hs)⟩
  | checkStream =>
    cases hq : l.ws with
    | none => exact ⟨_, _, rfl, .move hp (.noStream hq)⟩
    | some socket => exact ⟨_, _, rfl, .move hp (.hasStream (by simp [hq]))⟩
  | dropConnected => exact ⟨_, _, rfl, .dropConnected hp⟩
  | read => exact ⟨_, _, rfl, .move hp .readFailed⟩
  | readError => exact ⟨_, _, rfl, .readError hp⟩
  | readErrorTest =>
    cases hq : l.stopRequested with
    | false => exact ⟨_, _, rfl, .move hp (.reconnect hq)⟩
    | true => exact ⟨_, _, rfl, .stopSeen (by rw [hp]; rfl) hq⟩
  | countReceived raw ingestTime => exact ⟨_, _, rfl, .countReceived hp⟩
  | parse raw ingestTime =>
    cases hq : parse raw with
    | none => exact ⟨_, _, rfl, .move hp (.malformed hq)⟩
    | some e => exact ⟨_, _, rfl, .move hp (.event hq)⟩
  | countMalformed => exact ⟨_, _, rfl, .countMalformed hp⟩
  | deliver e => exact ⟨_, _, rfl, .deliver hp⟩

theorem call_moves (hi : Invariant cfg s) (hr : s.live.reader ≠ .idle)
    (hs : s.live.stopper ≠ .locked) : ∃ x t, Step cfg s x t := by
  obtain ⟨late, ha⟩ := hi.coupled.inCall.mp hr
  obtain ⟨b, l, hb, hstep⟩ := reader_moves cfg.live cfg.parse hr hs
  rcases LiveSource.returns_step hstep with hret | ⟨o, hret, -⟩
  · exact ⟨_, _, .inNext ha hb hstep hret⟩
  · cases o with
    | none => exact ⟨_, _, .nextFalse ha hstep hret⟩
    | some e => exact ⟨_, _, .nextTrue ha hstep hret⟩

theorem reader_busy (h : r.holdsMutex = true) : r ≠ .idle := by
  rintro rfl
  cases h

/-- `stop()` waits only for a reader that can go on. -/
theorem stopper_moves (hi : Invariant cfg s) (hs : inStop s.live.stopper = true) :
    ∃ x t, Step cfg s x t := by
  cases hst : s.live.stopper with
  | flagged =>
    cases hm : s.live.reader.holdsMutex with
    | false => exact ⟨_, _, .finishStop rfl hs (.lockStop hst hm)⟩
    | true => exact call_moves hi (reader_busy hm) (by simp [hst])
  | locked => exact ⟨_, _, .finishStop rfl hs (.closeSocket hst)⟩
  | notCalled | returned => simp [hst, inStop] at hs

/-- Wherever the pipeline over the contract could move, so can the one over the source. -/
theorem source_moves {a : Thread} (hi : Invariant cfg s) (hs : inStop s.live.stopper = false)
    (ha : callsSource s.pipeline a = true) : ∃ x t, Step cfg s x t := by
  have hfree : s.live.stopper ≠ .locked := by
    intro hl
    simp [hl, inStop] at hs
  cases a with
  | publish => cases ha
  | ingest =>
    cases hing : s.pipeline.ingest with
    | atNext =>
      have hidle : s.live.reader = .idle := by
        by_contra hne
        obtain ⟨late, hl⟩ := hi.coupled.inCall.mp hne
        simp [hing] at hl
      exact ⟨_, _, .callNext hing hidle⟩
    | inNext late => exact call_moves hi (hi.coupled.inCall.mpr ⟨late, hing⟩) hfree
    | _ => simp [callsSource, hing] at ha
  | owner =>
    simp only [callsSource] at ha
    split at ha
    · next ho hscript => exact ⟨_, _, .start ho hscript hs⟩
    · next ho hscript =>
      cases hst : s.live.stopper with
      | notCalled => exact ⟨_, _, .requestStop ho hscript ha (.requestStop hst)⟩
      | returned =>
        cases hm : s.live.reader.holdsMutex with
        | false => exact ⟨_, _, .requestStopAgain ho hscript ha hst hm⟩
        | true => exact call_moves hi (reader_busy hm) hfree
      | flagged | locked => simp [hst, inStop] at hs
    · cases ha

theorem live_moves (hi : Invariant cfg s) (hcap : 1 ≤ s.pipeline.queue.capacity) :
    Returned s.pipeline ∨ ∃ x t, Step cfg s x t := by
  cases hs : inStop s.live.stopper with
  | true => exact Or.inr (stopper_moves hi hs)
  | false =>
    rcases IngestionPipeline.returned_or_moves contract_obeys hcap hi.flow with h | ⟨a, p, h⟩
    · exact Or.inl h
    · cases ha : callsSource s.pipeline a with
      | false => exact Or.inr ⟨_, _, .pipeline ha (fun _ => hs) h⟩
      | true => exact Or.inr (source_moves hi hs ha)

theorem stopping_keeps (h : Step cfg s x t) (hi : Invariant cfg s) (hs : Stopping s.pipeline) :
    Stopping t.pipeline := by
  cases hx : x.1 with
  | none => exact pipeline_hidden h hx ▸ hs
  | some a => exact IngestionPipeline.stopping_step (pipeline_visible hi h hx) hs

theorem capacity_keeps (h : Step cfg s x t) (hi : Invariant cfg s) :
    t.pipeline.queue.capacity = s.pipeline.queue.capacity := by
  cases hx : x.1 with
  | none => rw [pipeline_hidden h hx]
  | some a => exact IngestionPipeline.capacity_step (pipeline_visible hi h hx)

/-- The pipeline's circular wait, once the source's `stop()` is over. -/
theorem live_stuck {e : MarketEvent} (ho : s.pipeline.owner = .joinIngest)
    (hj : s.pipeline.ingestJoinable = true) (hing : s.pipeline.ingest = .pushing e)
    (hpub : s.pipeline.publish = .atPop) (hpush : s.pipeline.queue.canPush = false)
    (hpop : s.pipeline.queue.canPop = false) (hst : s.live.stopper = .returned) :
    Stuck (Step cfg) s := by
  intro x t h
  cases h with
  | pipeline _ _ h =>
    exact IngestionPipeline.stuck_of_circular_wait ho hj hing hpub hpush hpop _ _ h
  | finishStop _ hs => simp [hst, inStop] at hs
  | start h | requestStop h | requestStopAgain h => simp [ho] at h
  | callNext h | inNext h | nextTrue h | nextFalse h => simp [hing] at h

/-- With no slot the first frame that parses closes the circle. -/
theorem live_stuck_reachable {raw : Bytes} {e : MarketEvent} (hcap : cfg.capacity = 0)
    (hp : cfg.parse raw = some e) :
    ∃ s, Reachable (Step cfg) (initial cfg [.start, .requestStop, .stop]) s ∧
      ¬ Returned s.pipeline ∧ Stuck (Step cfg) s := by
  have h₀ := afterFrame_reachable cfg raw 0 hp
  have h₁ := h₀.snoc (.pipeline rfl (fun _ => rfl) (.countReceived rfl))
  have h₂ := h₁.snoc (.pipeline rfl (fun _ => rfl) (.record rfl))
  have h₃ := h₂.snoc (.requestStop rfl rfl rfl (.requestStop rfl))
  have h₄ := h₃.snoc (.finishStop rfl rfl (.lockStop rfl rfl))
  have h₅ := h₄.snoc (.finishStop rfl rfl (.closeSocket rfl))
  have h₆ := h₅.snoc (.pipeline rfl (fun _ => rfl) (.stop rfl rfl rfl))
  refine ⟨_, h₆, by simp [Returned], ?_⟩
  refine live_stuck rfl rfl rfl rfl ?_ rfl rfl
  simp [afterFrame, IngestionPipeline.initial, Setup.pipeline, BoundedQueue.new,
    BoundedQueue.canPush, hcap]

/-- With a live source all three threads can block only on a queue without slots. With one,
every run after `requestStop()` returns from `stop()`, as long as the network calls and the
frame parser return. -/
theorem live_stop_returns_iff (cfg : Setup) (hp : ∃ raw e, cfg.parse raw = some e) :
    ((∃ s, Reachable (Step cfg) (initial cfg [.start, .requestStop, .stop]) s ∧
      ¬ Returned s.pipeline ∧ Stuck (Step cfg) s) ↔ cfg.capacity = 0) ∧
    (1 ≤ cfg.capacity → ∀ s, Reachable (Step cfg) (initial cfg [.start, .requestStop, .stop]) s →
      .requestStop ∉ s.pipeline.script →
      Within (Step cfg) (fun t => Returned t.pipeline)
        (12 * stepsToReturn s.pipeline + 12) s) := by
  have hone : IngestionPipeline.OneStart [.start, .requestStop, .stop] := by decide
  refine ⟨⟨?_, ?_⟩, ?_⟩
  · rintro ⟨s, hr, hn, hstuck⟩
    obtain ⟨hpipe, hi⟩ := simulates_pipeline.reachable (invariant_initial hone) hr
    obtain ⟨-, -, hcap⟩ := IngestionPipeline.shutdown_reachable hpipe
    by_contra hne
    have hroom : 1 ≤ s.pipeline.queue.capacity := by
      rw [hcap]
      exact Nat.one_le_iff_ne_zero.mpr hne
    rcases live_moves hi hroom with h | ⟨x, t, h⟩
    · exact hn h
    · exact hstuck x t h
  · intro hcap
    obtain ⟨raw, e, he⟩ := hp
    exact live_stuck_reachable hcap he
  · intro hcap s hr hreq
    obtain ⟨hpipe, hi⟩ := simulates_pipeline.reachable (invariant_initial hone) hr
    obtain ⟨hf, hsc, hc⟩ := IngestionPipeline.shutdown_reachable hpipe
    obtain ⟨hst, hle⟩ := hsc.stopping hf.control hreq
    have hrank : liveRank s ≤ 12 * stepsToReturn s.pipeline + 12 := by
      have hreader := readerRank_le s.live.reader
      have hstopper := stopperRank_le s.live.stopper
      unfold liveRank
      omega
    refine within_of_rank (I := fun t => Invariant cfg t ∧ Stopping t.pipeline ∧
      1 ≤ t.pipeline.queue.capacity) liveRank ?_ ?_ ?_ ⟨hi, hst, hc ▸ hcap⟩ hrank
    · rintro t x u ⟨ht, hs, hroom⟩ hstep
      exact ⟨simulates_pipeline.keeps ht hstep, stopping_keeps hstep ht hs,
        (capacity_keeps hstep ht).symm ▸ hroom⟩
    · rintro t x u ⟨ht, hs, -⟩ hstep
      exact liveRank_step hstep ht hs
    · rintro t ⟨ht, -, hroom⟩
      exact live_moves ht hroom

theorem live_stop_returns_one_slot :
    ¬ ∃ s, Reachable (Step (oneSlot fun _ => some {}))
      (initial (oneSlot fun _ => some {}) [.start, .requestStop, .stop]) s ∧
        ¬ Returned s.pipeline ∧ Stuck (Step (oneSlot fun _ => some {})) s := by
  intro h
  have hcap := (live_stop_returns_iff (oneSlot fun _ => some {}) ⟨[], {}, rfl⟩).1.mp h
  simp [oneSlot] at hcap

end TickForge.LiveIngestion
