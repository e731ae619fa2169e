import TickForge.Capture.RoundTrip
import TickForge.IngestionPipeline.Sequence

/-! A pipeline run that replays the capture file of another one. -/
namespace TickForge

open ByteString Nlohmann Transition EventRecorder IngestionPipeline

namespace ReplaySource

variable {c : Codec} {stops : ℕ → Bool} {now : Int64} {clock : ℕ → Int64} {r r' : ReplaySource}
  {e : MarketEvent} {file : Bytes} {delivered : List MarketEvent}

/-- The source after `k` calls that returned true; such a call has met no stop request. -/
def after (c : Codec) (clock : ℕ → Int64) (file : Bytes) : ℕ → Option ReplaySource
  | 0 => some (start file)
  | k + 1 =>
    match after c clock file k with
    | none => none
    | some r =>
      match r.next c never (clock k) with
      | .ok (some _, r') => some r'
      | _ => none

/-- As the pipeline sees it: a stop request before the call is met by its first test, and
without any request no test meets one. -/
def source (c : Codec) (clock : ℕ → Int64) (file : Bytes) : Source MarketEvent where
  mayReturn k late now result :=
    ∃ r r' stops, after c clock file k = some r ∧ (late = true → stops 0 = true) ∧
      (now = false → ∀ i, stops i = false) ∧ r.next c stops (clock k) = .ok (result, r')
  clearsOnStart := false

/-- A call that delivers has not been stopped. -/
theorem next_some (h : r.next c stops now = .ok (some e, r')) :
    r.next c never now = .ok (some e, r') := by
  fun_induction next c stops now r with
  | case1 | case2 | case4 => simp at h
  | case3 stops r hs line rest hg hline ih =>
    rw [next_line hg, if_pos hline]
    exact ih h
  | case5 stops r hs line rest hg hline hd ih =>
    rw [next_line hg, if_neg hline, hd]
    exact ih h
  | case6 stops r hs line rest hg hline event hd =>
    rw [next_line hg, if_neg hline, hd]
    exact h

/-- The first delivered event is the one of the first call. -/
theorem drain_head {final : ReplaySource} (hd : r.drain c clock = .ok (delivered, final))
    (h : r.next c never (clock 0) = .ok (some e, r')) :
    ∃ rest, delivered = e :: rest ∧ r'.drain c (fun i => clock (i + 1)) = .ok (rest, final) := by
  rw [drain_unfold, h] at hd
  cases ht : r'.drain c (fun i => clock (i + 1)) with
  | error x => simp [ht, Except.map] at hd
  | ok p =>
    simp only [ht, Except.map, Except.ok.injEq, Prod.mk.injEq] at hd
    exact ⟨p.1, hd.1.symm, by rw [← hd.2]⟩

theorem drain_end {final : ReplaySource} (hd : r.drain c clock = .ok (delivered, final))
    (h : r.next c never (clock 0) = .ok (none, r')) : delivered = [] := by
  rw [drain_unfold, h] at hd
  simp only [Except.ok.injEq, Prod.mk.injEq] at hd
  exact hd.1.symm

theorem after_succ {k : ℕ} (h : after c clock file (k + 1) = some r') :
    ∃ r e, after c clock file k = some r ∧ r.next c never (clock k) = .ok (some e, r') := by
  rw [after] at h
  cases hk : after c clock file k with
  | none => simp [hk] at h
  | some r =>
    simp only [hk] at h
    split at h
    · next e _ hn =>
      obtain rfl := Option.some.inj h
      exact ⟨r, e, rfl, hn⟩
    · simp at h

/-- After `k` calls the rest of the events is still to come. -/
theorem drain_after {final : ReplaySource}
    (hd : drain c clock (start file) = .ok (delivered, final)) {k : ℕ}
    (h : after c clock file k = some r) :
    r.drain c (fun i => clock (k + i)) = .ok (delivered.drop k, final) := by
  induction k generalizing r with
  | zero =>
    obtain rfl : start file = r := by simpa [after] using h
    simpa using hd
  | succ k ih =>
    obtain ⟨q, e, hk, hn⟩ := after_succ h
    obtain ⟨rest, hrest, ht⟩ := drain_head (ih hk) hn
    have hdrop : delivered.drop (k + 1) = rest := by
      rw [← List.drop_drop, hrest]
      rfl
    rw [hdrop, ← ht]
    congr 1
    funext i
    congr 1
    omega

/-- A replayed file is a source with a fixed list of events. -/
theorem source_follows {final : ReplaySource}
    (hd : drain c clock (start file) = .ok (delivered, final)) :
    (source c clock file).Follows delivered where
  delivers := by
    rintro k late now e ⟨r, r', stops, hk, -, -, hn⟩
    obtain ⟨rest, hrest, -⟩ := drain_head (drain_after hd hk) (next_some hn)
    have := congrArg List.head? hrest
    simpa using this
  ends := by
    rintro k late ⟨r, r', stops, hk, -, hstops, hn⟩
    have hnever : stops = never := funext (hstops rfl)
    have hnil := drain_end (drain_after hd hk) (hnever ▸ hn)
    simpa using hnil

/-- After the `k`-th call the next event is the `k`-th, and behind the last there is none. -/
theorem next_after {final : ReplaySource}
    (hd : drain c clock (start file) = .ok (delivered, final)) {k : ℕ}
    (h : after c clock file k = some r) :
    ∃ r', r.next c never (clock k) = .ok (delivered[k]?, r') := by
  have hrest := drain_after hd h
  cases hn : r.next c never (clock k) with
  | error x => simp [drain_unfold, hn] at hrest
  | ok p =>
    obtain ⟨o, r'⟩ := p
    refine ⟨r', ?_⟩
    cases o with
    | none =>
      have hnil : delivered.drop k = [] := drain_end hrest hn
      rw [List.getElem?_eq_none (List.drop_eq_nil_iff.mp hnil)]
    | some e =>
      obtain ⟨rest, hcons, -⟩ := drain_head hrest hn
      have hhead := congrArg List.head? hcons
      rw [List.head?_drop] at hhead
      rw [hhead]
      rfl

theorem after_of_le {final : ReplaySource}
    (hd : drain c clock (start file) = .ok (delivered, final)) {k : ℕ}
    (hk : k ≤ delivered.length) : ∃ r, after c clock file k = some r := by
  induction k with
  | zero => exact ⟨_, rfl⟩
  | succ k ih =>
    obtain ⟨r, h⟩ := ih (by omega)
    obtain ⟨r', hn⟩ := next_after hd h
    rw [List.getElem?_eq_getElem hk] at hn
    exact ⟨r', by simp [after, h, hn]⟩

/-- Calls that have all delivered can be made again up to where the file ends. -/
theorem drain_of_after {k : ℕ} (h : after c clock file k = some r)
    (hd : ∃ p, r.drain c (fun i => clock (k + i)) = .ok p) :
    ∃ p, drain c clock (start file) = .ok p := by
  induction k generalizing r with
  | zero =>
    obtain rfl : start file = r := by simpa [after] using h
    simpa using hd
  | succ k ih =>
    obtain ⟨q, e, hk, hn⟩ := after_succ h
    obtain ⟨p, hp⟩ := hd
    refine ih hk ⟨(e :: p.1, p.2), ?_⟩
    have hclock : (fun i => clock (k + (i + 1))) = fun i => clock (k + 1 + i) := by
      funext i
      congr 1
      omega
    rw [drain_unfold]
    simp only [Nat.add_zero, hn, hclock, hp]
    rfl

/-- Nobody stops the source, and its calls return the events one by one and then the end. -/
theorem source_delivers {final : ReplaySource}
    (hd : drain c clock (start file) = .ok (delivered, final)) :
    ∀ k ≤ delivered.length, (source c clock file).mayReturn k false false delivered[k]? := by
  intro k hk
  obtain ⟨r, h⟩ := after_of_le hd hk
  obtain ⟨r', hn⟩ := next_after hd h
  exact ⟨r, r', never, h, by simp, fun _ _ => rfl, hn⟩

end ReplaySource

variable {c : Codec}

/-- The encoder does not see `ingest_time`. -/
theorem recordAll_congr {events events' : List MarketEvent}
    (h : events'.map MarketEvent.timeless = events.map MarketEvent.timeless) :
    recordAll c events' = recordAll c events := by
  have hrecord : ∀ r e, EventRecorder.record c r e = EventRecorder.record c r e.timeless :=
    fun r e => rfl
  have hfold : ∀ (es : List MarketEvent) r,
      es.foldlM (EventRecorder.record c) r =
        (es.map MarketEvent.timeless).foldlM (EventRecorder.record c) r := by
    intro es r
    rw [List.foldlM_map]
    rfl
  rw [recordAll, recordAll, hfold, h, ← hfold]

/-- The run that replays a capture hands over, counts and records what the first run did,
whatever the two schedules, capacities and publishers were. -/
theorem replay_reproduces_capture (hc : c.Lawful) {cfg cfg' : Config MarketEvent}
    {script script' : List Call} {s t : IngestionPipeline.State MarketEvent}
    (ho : OneStart script) (h : Reachable (IngestionPipeline.Step cfg)
      (IngestionPipeline.initial cfg script) s)
    (hs : s.stopped = true) (hrec : cfg.recorder = true) (henc : ∀ e ∈ s.yielded, e.Encodable)
    {r : EventRecorder} (hr : recordAll c s.recorded = .ok r) (clock : ℕ → Int64)
    (hsrc : cfg'.source = ReplaySource.source c clock r.file) (ho' : OneStart script')
    (h' : Reachable (IngestionPipeline.Step cfg') (IngestionPipeline.initial cfg' script') t)
    (ht : t.stopped = true) (hrec' : cfg'.recorder = true) (heof : t.exhausted = true) :
    t.handed.map MarketEvent.timeless = s.handed.map MarketEvent.timeless ∧
    t.eventsReceived = s.eventsReceived ∧
    ∃ r', recordAll c t.recorded = .ok r' ∧ r'.file = r.file := by
  obtain ⟨hhanded, hcount, -, hrecorded⟩ := (flow_reachable ho h).complete hs
  obtain ⟨hhanded', hcount', -, hrecorded'⟩ := (flow_reachable ho' h').complete ht
  obtain ⟨delivered, hd, heq⟩ :=
    drain_capture clock hc (hrecorded hrec ▸ henc) hr
  have hyield : t.yielded = delivered :=
    (sequenced_reachable (hsrc ▸ ReplaySource.source_follows hd) ho' h').exhausted heof
  rw [hrecorded hrec, ← hyield] at heq
  refine ⟨by rw [hhanded, hhanded', heq], ?_, r, ?_, rfl⟩
  · have hlen := congrArg List.length heq
    simp only [List.length_map] at hlen
    rw [hcount, hcount', hlen]
  · rw [hrecorded' hrec', recordAll_congr heq, ← hrecorded hrec]
    exact hr

/-- Two events of one symbol are captured, and the file replayed. -/
theorem replay_reproduces_capture_two_events :
    ∃ (r : EventRecorder) (s t : IngestionPipeline.State MarketEvent),
      s.recorded = [sampleEvent, laterEvent] ∧ recordAll compact s.recorded = .ok r ∧
      t.exhausted = true ∧
      t.handed.map MarketEvent.timeless = s.handed.map MarketEvent.timeless ∧
      t.eventsReceived = s.eventsReceived ∧
      ∃ r', recordAll compact t.recorded = .ok r' ∧ r'.file = r.file := by
  obtain ⟨s, hs, hstop, -, hyield, hrec, -⟩ :=
    @whole_run _ _ (.ofList [sampleEvent, laterEvent]) fun k _ => Or.inl ⟨rfl, rfl⟩
  have hr := recordAll_ok (c := compact) fun e he => (encodable_two e he).printable.1
  obtain ⟨delivered, hd, heq⟩ := drain_capture (fun _ => 5) compact_lawful encodable_two hr
  obtain ⟨t, ht, htstop, hteof, -⟩ := whole_run (ReplaySource.source_delivers hd)
  have hr' : recordAll compact s.recorded =
      .ok ⟨[sampleEvent, laterEvent].flatMap (line compact), []⟩ := by
    rw [hrec]
    exact hr
  refine ⟨_, s, t, hrec, hr', hteof, ?_⟩
  exact replay_reproduces_capture compact_lawful (by decide) hs hstop rfl
    (hyield ▸ encodable_two) hr' _ rfl (by decide) ht htstop rfl hteof

end TickForge
