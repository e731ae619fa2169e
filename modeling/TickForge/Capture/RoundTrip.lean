import TickForge.Capture.EventRecorder
import TickForge.Lib.JsonText
import TickForge.Sources.ReplaySource

/-! Replaying a capture file gives back the recorded events. -/
namespace TickForge

open ByteString Nlohmann Transition EventRecorder

variable {c : Codec} {e : MarketEvent} {events : List MarketEvent}

theorem decodeRecord_text (hc : c.Lawful) (h : e.Encodable) :
    decodeRecord c (c.text (marketEventToJson e)) = .ok (some e.timeless) := by
  simp [decodeRecord, hc.parse_text h.printable, marketEventFromJson_roundtrip h, bind, Except.bind,
    pure, Except.pure]

theorem decodeAll_text (hc : c.Lawful) (h : ∀ e ∈ events, e.Encodable) :
    decodeAll c (events.map fun e => c.text (marketEventToJson e)) =
      .ok (events.map fun e => some e.timeless) := by
  induction events with
  | nil => rfl
  | cons e events ih =>
    have he := h e (by simp)
    have hes := ih fun e he => h e (List.mem_cons_of_mem _ he)
    rw [List.map_cons, decodeAll_cons, decodeRecord_text hc he, hes]
    rfl

variable {r : EventRecorder}

theorem recordAll_file (h : ∀ e ∈ events, e.Encodable) (hr : recordAll c events = .ok r) :
    r.file = events.flatMap (line c) := by
  rw [recordAll_ok fun e he => (h e he).printable.1, Except.ok.injEq] at hr
  rw [← hr]

/-- The file is split back into the texts that were written to it, whatever follows. -/
theorem records_capture (hc : c.Lawful) (h : ∀ e ∈ events, e.Encodable) (b : Bytes) :
    ReplaySource.records (events.flatMap (line c) ++ b) =
      (events.map fun e => c.text (marketEventToJson e)) ++ ReplaySource.records b := by
  have hfile : events.flatMap (line c) =
      (events.map fun e => c.text (marketEventToJson e)).flatMap (· ++ [newline]) := by
    rw [List.flatMap_map]
    rfl
  rw [hfile]
  refine ReplaySource.records_flatMap_append ?_ b
  intro text ht
  obtain ⟨e, he, rfl⟩ := List.mem_map.mp ht
  exact ⟨hc.text_ne_nil (h e he).printable, hc.newline_notMem (h e he).printable⟩

/-- `next()` until false on a capture file, with no line counted as malformed. -/
theorem drain_capture (clock : ℕ → Int64) (hc : c.Lawful) (h : ∀ e ∈ events, e.Encodable)
    (hr : recordAll c events = .ok r) :
    ∃ delivered, ReplaySource.drain c clock (.start r.file) = .ok (delivered, ⟨[], 0⟩) ∧
      delivered.map MarketEvent.timeless = events.map MarketEvent.timeless := by
  have hrec : decodeAll c (ReplaySource.records (ReplaySource.start r.file).input) =
      .ok (events.map fun e => some e.timeless) := by
    have hfile := records_capture hc h []
    rw [List.append_nil] at hfile
    rw [ReplaySource.start, recordAll_file h hr, hfile, ReplaySource.records, lines,
      List.filter_nil, List.append_nil, decodeAll_text hc h]
  obtain ⟨delivered, hd, heq⟩ := ReplaySource.drain_ok clock hrec
  refine ⟨delivered, ?_, ?_⟩
  · simpa [ReplaySource.start, List.countP_eq_zero.mpr] using hd
  · simpa [List.reduceOption, List.filterMap_map, Function.comp_def] using heq

example : compact.text (marketEventToJson sampleEvent) = utf8
    "\x7b\"event_time_ms\":1700000000123,\"price\":65432.5,\"provider_sequence\":42,\"source\":\"live:binance\",\"symbol\":\"BTCUSDT\"\x7d" := by
  decide +kernel

/-- Whatever the threads and sessions did, once no call is in progress the file replays as
the recorded events, in the order of the mutex. -/
theorem replay_undoes_record {ι : Type*} [DecidableEq ι] {c : Codec} (hc : c.Lawful)
    {s : State ι} (h : Reachable (Step c) initial s) (hdone : ∀ i, s.pc i = .idle)
    (henc : ∀ e ∈ s.acquired, e.Encodable) (clock : ℕ → Int64) :
    ∃ delivered final, ReplaySource.drain c clock (.start s.recorder.file) =
        .ok (delivered, final) ∧
      delivered.map MarketEvent.timeless = s.acquired.map MarketEvent.timeless ∧
      final.linesMalformed = 0 := by
  have hr := recorder_at_rest h hdone fun e he => (henc e he).printable.1
  obtain ⟨delivered, hd, heq⟩ := drain_capture clock hc henc hr
  exact ⟨delivered, _, hd, heq, rfl⟩

/-- Two threads and two sessions: the second thread gets the mutex first. -/
theorem replay_undoes_record_two_threads :
    ∃ s : State Bool, Reachable (Step compact) initial s ∧
      s.acquired = [sampleEvent, { sampleEvent with providerSequence := none }] ∧
      ∃ delivered final, ReplaySource.drain compact (fun _ => 5) (.start s.recorder.file) =
          .ok (delivered, final) ∧
        delivered.map MarketEvent.timeless = s.acquired.map MarketEvent.timeless ∧
        final.linesMalformed = 0 := by
  have hd : ∀ e : MarketEvent, e.Encodable →
      compact.dump (marketEventToJson e) = .ok (compact.text (marketEventToJson e)) := by
    intro e he
    simp [Codec.dump, he.printable.1]
  have he₁ := sampleEvent_encodable
  have he₂ : ({ sampleEvent with providerSequence := none } : MarketEvent).Encodable :=
    ⟨he₁.symbol_ne_nil, he₁.symbol_utf8, he₁.source_utf8, he₁.price_finite, he₁.whole_ms⟩
  have h₁ : Reachable (Step compact) (initial : State Bool) _ :=
    (Reachable.refl _).snoc (.openFile rfl)
  have h₂ := h₁.snoc (.call (i := false) (e := { sampleEvent with providerSequence := none }) rfl
    rfl)
  have h₃ := h₂.snoc (.call (i := true) (e := sampleEvent) rfl rfl)
  have h₄ := h₃.snoc (.lock (i := true) (e := sampleEvent) rfl rfl)
  have h₅ := h₄.snoc (.dump (i := true) (e := sampleEvent) rfl (hd _ he₁))
  have h₆ := h₅.snoc (.writeText (i := true) rfl)
  have h₇ := h₆.snoc (.spill (n := 3))
  have h₈ := h₇.snoc (.writeNewline (i := true) rfl)
  have h₉ := h₈.snoc (.flush (i := true) rfl)
  have h₁₀ := h₉.snoc (.unlock (i := true) rfl)
  have h₁₁ := h₁₀.snoc (.lock (i := false) rfl rfl)
  have h₁₂ := h₁₁.snoc (.dump (i := false) rfl (hd _ he₂))
  have h₁₃ := h₁₂.snoc (.writeText (i := false) rfl)
  have h₁₄ := h₁₃.snoc (.writeNewline (i := false) rfl)
  have h₁₅ := h₁₄.snoc (.flush (i := false) rfl)
  have h₁₆ := h₁₅.snoc (.unlock (i := false) rfl)
  have h₁₇ := h₁₆.snoc (.closeFile rfl (by intro i; cases i <;> rfl))
  have h₁₈ := h₁₇.snoc (.openFile rfl)
  refine ⟨_, h₁₈, rfl, replay_undoes_record compact_lawful h₁₈ (by intro i; cases i <;> rfl) ?_ _⟩
  intro e he
  rcases List.mem_cons.mp he with rfl | he
  · exact he₁
  · obtain rfl := List.mem_singleton.mp he
    exact he₂

end TickForge
