import TickForge.Lib.JsonText
import TickForge.Sources.ReplaySource

/-! What a caller sees of successive `next()` calls on one replay file. -/
namespace TickForge.ReplaySource

open ByteString Nlohmann

/-- A `next(out)` call that has returned: its result, `out`, and the source. -/
structure Observation where
  returned : Bool
  out : MarketEvent
  source : ReplaySource

/-- Successive calls on one `out`; `stops k` are the tests of the `k`-th call. -/
def calls (c : Codec) (stops : ℕ → ℕ → Bool) (clock : ℕ → Int64) :
    ℕ → MarketEvent → ReplaySource → Except Exception (List Observation)
  | 0, _, _ => .ok []
  | n + 1, out, r =>
    match r.next c (stops 0) (clock 0) with
    | .error e => .error e
    | .ok (o, r') =>
      -- a call that returns false does not touch `out`
      (calls c (fun k => stops (k + 1)) (fun k => clock (k + 1)) n (o.getD out) r').map
        (⟨o.isSome, o.getD out, r'⟩ :: ·)

/-- `stop()` happens before the `m`-th test of the `n`-th call, or after that call's last. -/
def stopping (n m : ℕ) : ℕ → ℕ → Bool := fun k i => n < k || (k == n && m ≤ i)

/-- The events of the calls that returned true. -/
def delivered (obs : List Observation) : List MarketEvent :=
  (obs.filter (·.returned)).map (·.out.timeless)

/-- The decodings of the lines that decode, in file order. -/
def accepted (c : Codec) (file : Bytes) : List MarketEvent :=
  (records file).filterMap (decodeEvent c)

/-- Between two states of the source the lines `used` were read, and each one that is not
empty was delivered or counted. -/
structure Consumed (c : Codec) (r r' : ReplaySource) (used : List Bytes)
    (events : List MarketEvent) : Prop where
  read : lines r.input = used ++ lines r'.input
  decoded : (used.filter (!·.isEmpty)).filterMap (decodeEvent c) = events
  counted : r'.linesMalformed + events.length =
    r.linesMalformed + (used.filter (!·.isEmpty)).length

variable {c : Codec} {stops : ℕ → Bool} {now : Int64} {r r' r'' : ReplaySource}
  {used used' : List Bytes} {events events' : List MarketEvent} {line rest file : Bytes}

theorem Consumed.refl (c : Codec) (r : ReplaySource) : Consumed c r r [] [] :=
  ⟨rfl, rfl, rfl⟩

theorem Consumed.trans (h : Consumed c r r' used events) (h' : Consumed c r' r'' used' events') :
    Consumed c r r'' (used ++ used') (events ++ events') := by
  refine ⟨?_, ?_, ?_⟩
  · rw [h.read, h'.read, List.append_assoc]
  · rw [List.filter_append, List.filterMap_append, h.decoded, h'.decoded]
  · have := h.counted
    have := h'.counted
    simp only [List.filter_append, List.length_append]
    omega

/-- One line: empty, malformed, or an event. -/
theorem Consumed.one (hg : getline r.input = some (line, rest)) :
    (line.isEmpty = true → Consumed c r { r with input := rest } [line] []) ∧
    (line.isEmpty = false → decodeEvent c line = none →
      Consumed c r ⟨rest, r.linesMalformed + 1⟩ [line] []) ∧
    (∀ e, line.isEmpty = false → decodeEvent c line = some e →
      Consumed c r { r with input := rest } [line] [e]) := by
  have hlines := lines_of_getline hg
  refine ⟨?_, ?_, ?_⟩
  · intro he
    exact ⟨hlines, by simp [he], by simp [he]⟩
  · intro he hd
    exact ⟨hlines, by simp [he, hd], by simp [he]⟩
  · intro e he hd
    exact ⟨hlines, by simp [he, hd], by simp [he]⟩

/-- No line that is still to be read makes the decoder throw. -/
def Readable (c : Codec) (r : ReplaySource) : Prop :=
  ∀ line ∈ records r.input, ¬ Overflowing c line

theorem Consumed.readable (h : Consumed c r r' used events) (hr : Readable c r) :
    Readable c r' := by
  intro line hl
  refine hr line ?_
  rw [records, h.read, List.filter_append]
  exact List.mem_append_right _ hl

/-- One call reads some lines, of which at most the last one is delivered. Without a stop
request it fails only at the end of the file; with one it reads nothing. -/
theorem next_consumed (stops : ℕ → Bool) (now : Int64) (hr : Readable c r) :
    ∃ o r' used, r.next c stops now = .ok (o, r') ∧
      Consumed c r r' used (o.map MarketEvent.timeless).toList ∧
      ((∀ i, stops i = false) → o = none → r'.input = []) ∧
      (stops 0 = true → o = none ∧ r' = r) := by
  fun_induction next c stops now r with
  | case1 stops r hs =>
    refine ⟨none, r, [], rfl, .refl c r, ?_, fun _ => ⟨rfl, rfl⟩⟩
    intro h
    simp [h 0] at hs
  | case2 stops r hs hg =>
    exact ⟨none, r, [], rfl, .refl c r, fun _ _ => getline_eq_none.mp hg, fun h => absurd h hs⟩
  | case3 stops r hs line rest hg hline ih =>
    have hstep := (Consumed.one (c := c) hg).1 hline
    obtain ⟨o, r', used, hn, hc, hend, -⟩ := ih (hstep.readable hr)
    exact ⟨o, r', _, hn, hstep.trans hc, fun h => hend fun i => h (i + 1), fun h => absurd h hs⟩
  | case4 stops r hs line rest hg hline e hd =>
    have hmem : line ∈ records r.input := by
      simp [records, lines_of_getline hg, hline]
    obtain ⟨o, ho⟩ := decodeRecord_total_iff.mpr (hr line hmem)
    simp [ho] at hd
  | case5 stops r hs line rest hg hline hd ih =>
    have hstep := (Consumed.one (c := c) hg).2.1 (by simpa using hline)
      (by simp [decodeEvent, hd, Except.toOption])
    obtain ⟨o, r', used, hn, hc, hend, -⟩ := ih (hstep.readable hr)
    exact ⟨o, r', _, hn, hstep.trans hc, fun h => hend fun i => h (i + 1), fun h => absurd h hs⟩
  | case6 stops r hs line rest hg hline event hd =>
    have hstep := (Consumed.one (c := c) hg).2.2 event (by simpa using hline)
      (by simp [decodeEvent, hd, Except.toOption])
    refine ⟨_, _, [line], rfl, ?_, by simp, fun h => absurd h hs⟩
    have ht : MarketEvent.timeless { event with ingestTime := now } = event :=
      decodeRecord_timeless hd
    rw [Option.map_some, ht]
    exact hstep

/-- The events of the first observation go before those of the others. -/
theorem delivered_cons (o : Option MarketEvent) (out : MarketEvent) (r : ReplaySource)
    (obs : List Observation) :
    delivered (⟨o.isSome, o.getD out, r⟩ :: obs) =
      (o.map MarketEvent.timeless).toList ++ delivered obs := by
  cases o <;> simp [delivered]

/-- Whatever the tests read, the calls so far have read some of the lines. -/
theorem calls_consumed (stops : ℕ → ℕ → Bool) (clock : ℕ → Int64) (n : ℕ) (out : MarketEvent)
    (hr : Readable c r) :
    ∃ obs, calls c stops clock n out r = .ok obs ∧ obs.length = n ∧
      ∀ k o, obs[k]? = some o → (stops k 0 = true → o.returned = false) ∧
        ∃ used, Consumed c r o.source used (delivered (obs.take (k + 1))) := by
  induction n generalizing stops clock out r with
  | zero => exact ⟨[], rfl, rfl, by simp⟩
  | succ n ih =>
    obtain ⟨o, r', used, hn, hc, -, hstop⟩ := next_consumed (stops 0) (clock 0) hr
    obtain ⟨obs, hobs, hlen, hall⟩ := ih (fun k => stops (k + 1)) (fun k => clock (k + 1))
      (o.getD out) (hc.readable hr)
    refine ⟨⟨o.isSome, o.getD out, r'⟩ :: obs, by simp [calls, hn, hobs, Except.map], by simp [hlen],
      ?_⟩
    intro k o' hk
    cases k with
    | zero =>
      obtain rfl := Option.some.inj hk
      refine ⟨fun h => by simp [(hstop h).1], used, ?_⟩
      rw [List.take_succ_cons, delivered_cons]
      simpa [delivered] using hc
    | succ k =>
      obtain ⟨hstop', used', hc'⟩ := hall k o' hk
      refine ⟨hstop', used ++ used', ?_⟩
      rw [List.take_succ_cons, delivered_cons]
      exact hc.trans hc'

/-- What was delivered stands before what is still to be delivered. -/
theorem Consumed.accepted (h : Consumed c r r' used events) :
    ReplaySource.accepted c r.input = events ++ ReplaySource.accepted c r'.input := by
  rw [ReplaySource.accepted, records, h.read, List.filter_append, List.filterMap_append, h.decoded]
  rfl

/-- The lines that are delivered or counted, now and later, stay the same in number. -/
theorem Consumed.total (h : Consumed c r r' used events) :
    r'.linesMalformed + events.length + (records r'.input).length =
      r.linesMalformed + (records r.input).length := by
  have := h.counted
  rw [records, records, h.read, List.filter_append, List.length_append]
  omega

theorem accepted_nil (h : r.input = []) : accepted c r.input = [] := by
  rw [accepted, records, h]
  rfl

/-- What successive calls without a stop request are like: the decodable lines one by one,
and behind the last one failures that touch nothing. -/
structure Filters (c : Codec) (r : ReplaySource) (out : MarketEvent) (obs : List Observation) :
    Prop where
  delivers : ∀ (k : ℕ) (o : Observation) (e : MarketEvent), obs[k]? = some o →
    (accepted c r.input)[k]? = some e → o.returned = true ∧ o.out.timeless = e
  ends : ∀ (k : ℕ) (o : Observation), obs[k]? = some o → (accepted c r.input)[k]? = none →
    o.returned = false ∧ o.source.input = [] ∧
    o.source.linesMalformed + (accepted c r.input).length =
      r.linesMalformed + (records r.input).length
  untouched : ∀ o : Observation, obs[0]? = some o → o.returned = false → o.out = out
  settled : ∀ (k : ℕ) (o o' : Observation), obs[k]? = some o → obs[k + 1]? = some o' →
    o.returned = false → o'.returned = false ∧ o'.out = o.out ∧ o'.source = o.source

/-- A call that fails is at the end of the file, and so are the ones behind it. -/
theorem Filters.fail {out : MarketEvent} {obs : List Observation} (hf : Filters c r' out obs)
    (hc : Consumed c r r' used []) (hempty : r'.input = []) :
    Filters c r out (⟨false, out, r'⟩ :: obs) := by
  obtain ⟨-, hfail, hout, hsame⟩ := hf
  have hnil' : accepted c r'.input = [] := accepted_nil hempty
  have hnil : accepted c r.input = [] := hc.accepted.trans hnil'
  have htotal : r'.linesMalformed = r.linesMalformed + (records r.input).length := by
    simpa [hempty, records, lines] using hc.total
  have hrest : ∀ (k : ℕ) (o : Observation), obs[k]? = some o →
      o.returned = false ∧ o.source = r' := by
    intro k o hk
    obtain ⟨hret, hin, hcount⟩ := hfail k o hk (by simp [hnil'])
    refine ⟨hret, ?_⟩
    obtain ⟨input, m⟩ := r'
    obtain ⟨ret, out', input', m'⟩ := o
    simp_all [records, lines]
  refine ⟨by simp [hnil], ?_, by simp, ?_⟩
  · intro k o hk _
    rw [hnil]
    cases k with
    | zero =>
      obtain rfl := Option.some.inj hk
      exact ⟨rfl, hempty, by simpa using htotal⟩
    | succ k =>
      obtain ⟨hret, hsrc⟩ := hrest k o hk
      exact ⟨hret, by rw [hsrc, hempty], by simpa [hsrc] using htotal⟩
  · intro k o o' hk hk' hret
    cases k with
    | zero =>
      obtain rfl := Option.some.inj hk
      obtain ⟨hret', hsrc⟩ := hrest 0 o' hk'
      exact ⟨hret', hout o' hk' hret', hsrc⟩
    | succ k => exact hsame k o o' hk hk' hret

/-- A call that delivers takes the first of the decodable lines. -/
theorem Filters.deliver {e out : MarketEvent} {obs : List Observation} (hf : Filters c r' e obs)
    (hc : Consumed c r r' used [e.timeless]) : Filters c r out (⟨true, e, r'⟩ :: obs) := by
  obtain ⟨hacc, hfail, -, hsame⟩ := hf
  have hsplit := hc.accepted
  have htotal := hc.total
  refine ⟨?_, ?_, by simp, ?_⟩
  · intro k o e' hk he
    rw [hsplit] at he
    cases k with
    | zero =>
      obtain rfl := Option.some.inj hk
      exact ⟨rfl, by simpa using he⟩
    | succ k => exact hacc k o e' hk (by simpa using he)
  · intro k o hk he
    rw [hsplit] at he ⊢
    cases k with
    | zero => simp at he
    | succ k =>
      obtain ⟨hret, hin, hcount⟩ := hfail k o hk (by simpa using he)
      refine ⟨hret, hin, ?_⟩
      simp only [List.length_append, List.length_singleton] at htotal ⊢
      omega
  · intro k o o' hk hk' hret
    cases k with
    | zero =>
      obtain rfl := Option.some.inj hk
      simp at hret
    | succ k => exact hsame k o o' hk hk' hret

theorem calls_never (clock : ℕ → Int64) (n : ℕ) (out : MarketEvent) (hr : Readable c r) :
    ∃ obs, calls c (fun _ => never) clock n out r = .ok obs ∧ Filters c r out obs := by
  induction n generalizing clock out r with
  | zero => exact ⟨[], rfl, by simp, by simp, by simp, by simp⟩
  | succ n ih =>
    obtain ⟨o, r', used, hn, hc, hend, -⟩ := next_consumed never (clock 0) hr
    obtain ⟨obs, hobs, hf⟩ := ih (fun k => clock (k + 1)) (o.getD out) (hc.readable hr)
    refine ⟨⟨o.isSome, o.getD out, r'⟩ :: obs, by simp [calls, hn, hobs, Except.map], ?_⟩
    cases o with
    | none => exact hf.fail hc (hend (fun _ => rfl) rfl)
    | some e => exact hf.deliver hc

/-- The events delivered so far are the first of the decodable lines. -/
theorem delivered_prefix {obs : List Observation}
    (h : ∀ k o, obs[k]? = some o →
      ∃ used, Consumed c r o.source used (delivered (obs.take (k + 1)))) :
    delivered obs <+: accepted c r.input := by
  cases hl : obs.getLast? with
  | none => simp [List.getLast?_eq_none_iff.mp hl, delivered]
  | some o =>
    rw [List.getLast?_eq_getElem?] at hl
    obtain ⟨used, hc⟩ := h _ o hl
    rw [List.take_of_length_le (by omega)] at hc
    exact ⟨_, hc.accepted.symm⟩

/-- A file is read as a filter over its lines. Without `stop()` the calls deliver the
decodable lines and count the others; whenever `stop()` happens, the calls begun later fail,
and what was delivered and counted before are the lines read so far. -/
theorem replay_filters_lines (c : Codec) (file : Bytes)
    (h : ∀ line ∈ records file, ¬ Overflowing c line) (clock : ℕ → Int64) (out : MarketEvent)
    (total : ℕ) :
    (∃ obs, calls c (fun _ => never) clock total out (start file) = .ok obs ∧
      obs.length = total ∧ Filters c (start file) out obs) ∧
    ∀ n m, ∃ obs, calls c (stopping n m) clock total out (start file) = .ok obs ∧
      obs.length = total ∧ delivered obs <+: accepted c file ∧
      ∀ k o, obs[k]? = some o → (n < k → o.returned = false) ∧
        ∃ used, Consumed c (start file) o.source used (delivered (obs.take (k + 1))) := by
  have hr : Readable c (start file) := h
  constructor
  · obtain ⟨obs, hobs, hlen, -⟩ := calls_consumed (fun _ => never) clock total out hr
    obtain ⟨obs', hobs', hf⟩ := calls_never clock total out hr
    obtain rfl : obs' = obs := by simpa [hobs] using hobs'.symm
    exact ⟨obs', hobs', hlen, hf⟩
  · intro n m
    obtain ⟨obs, hobs, hlen, hall⟩ := calls_consumed (stopping n m) clock total out hr
    refine ⟨obs, hobs, hlen, delivered_prefix fun k o hk => (hall k o hk).2, ?_⟩
    intro k o hk
    refine ⟨?_, (hall k o hk).2⟩
    intro hlt
    exact (hall k o hk).1 (by simp [stopping, hlt])

/-- An event, an empty line, and an unfinished line without an end. -/
def sampleFile : Bytes :=
  compact.text (marketEventToJson sampleEvent) ++ [newline, newline] ++ utf8 "\x7b\"price"

theorem replay_filters_lines_sample :
    accepted compact sampleFile = [sampleEvent] ∧ (records sampleFile).length = 2 ∧
    ∃ obs, calls compact (fun _ => never) (fun _ => 5) 3 {} (start sampleFile) = .ok obs ∧
      obs.length = 3 ∧ Filters compact (start sampleFile) {} obs := by
  have h : ∀ line ∈ records sampleFile, ¬ Overflowing compact line := by
    simp only [Overflowing]
    decide +kernel
  exact ⟨by decide +kernel, by decide +kernel,
    (replay_filters_lines compact sampleFile h (fun _ => 5) {} 3).1⟩

end TickForge.ReplaySource
