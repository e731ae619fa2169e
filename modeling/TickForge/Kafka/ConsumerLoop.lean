import TickForge.Capture.RoundTrip
import TickForge.Kafka.Consumer

/-! The thread that loops in the consumer's `next()`, and the one that calls `stop()`. -/
namespace TickForge.KafkaEventConsumer.Loop

open ByteString Nlohmann Transition

/-- Positions of the thread that calls `next()`. -/
inductive Reader where
  /-- Between two calls of `next()`. -/
  | idle
  | stopTest
  /-- Inside `rd_kafka_consumer_poll`. -/
  | poll
  | decode (m : Message)
  | countMalformed
  | countConsumed (record : ConsumedRecord)
  | deliver (record : ConsumedRecord)
  /-- An exception that `next()` does not catch has left it. -/
  | threw (e : Exception)
  deriving DecidableEq

structure State where
  reader : Reader
  stopRequested : Bool
  messagesConsumed : ℕ
  messagesMalformed : ℕ
  /-- The caller's `out`. -/
  out : ConsumedRecord
  /-- What the polls have returned. -/
  polled : List Poll
  /-- What the calls of `next()` returned: a record with true, or false. -/
  returns : List (Option ConsumedRecord)

inductive Action where
  | reader
  | poll (p : Poll)
  | stop
  deriving DecidableEq

def initial (out : ConsumedRecord) : State where
  reader := .idle
  stopRequested := false
  messagesConsumed := 0
  messagesMalformed := 0
  out := out
  polled := []
  returns := []

/-- One access to shared state of either thread. What a poll returns is arbitrary. -/
inductive Step (c : Codec) : State → Action → State → Prop where
  | call {s} : s.reader = .idle → Step c s .reader { s with reader := .stopTest }
  | stopSeen {s} : s.reader = .stopTest → s.stopRequested = true →
      Step c s .reader { s with reader := .idle, returns := s.returns ++ [none] }
  | loop {s} : s.reader = .stopTest → s.stopRequested = false →
      Step c s .reader { s with reader := .poll }
  /-- A timeout, an error or the end of a partition. -/
  | pollNothing {s p} : s.reader = .poll → p.message? = none →
      Step c s (.poll p) { s with reader := .stopTest, polled := s.polled ++ [p] }
  | pollMessage {s m} : s.reader = .poll →
      Step c s (.poll (.message m))
        { s with reader := .decode m, polled := s.polled ++ [.message m] }
  | decodeMalformed {s m} : s.reader = .decode m → decodeRecord c m.payload = .ok none →
      Step c s .reader { s with reader := .countMalformed }
  | decodeEvent {s m event} (now : Int64) : s.reader = .decode m →
      decodeRecord c m.payload = .ok (some event) →
      Step c s .reader { s with
        reader := .countConsumed ⟨{ event with ingestTime := now }, m.partition, m.offset⟩ }
  | decodeThrows {s m e} : s.reader = .decode m → decodeRecord c m.payload = .error e →
      Step c s .reader { s with reader := .threw e }
  | countMalformed {s} : s.reader = .countMalformed →
      Step c s .reader
        { s with reader := .stopTest, messagesMalformed := s.messagesMalformed + 1 }
  | countConsumed {s r} : s.reader = .countConsumed r →
      Step c s .reader
        { s with reader := .deliver r, messagesConsumed := s.messagesConsumed + 1 }
  | deliver {s r} : s.reader = .deliver r →
      Step c s .reader { s with reader := .idle, out := r, returns := s.returns ++ [some r] }
  | stop {s} : Step c s .stop { s with stopRequested := true }

variable {c : Codec} {out : ConsumedRecord} {s t : State} {a : Action}

/-- The messages among the polls. -/
def State.messages (s : State) : List Message := s.polled.filterMap Poll.message?

/-- The records of the calls that returned true. -/
def State.records (s : State) : List ConsumedRecord := s.returns.reduceOption

/-- What a message is to the caller, but for the time of its arrival. -/
def record (c : Codec) (m : Message) : Option ConsumedRecord := pair m (decodeEvent c m.payload)

/-- The record of a message that has been polled and not returned yet. -/
def Reader.pending (c : Codec) : Reader → Option ConsumedRecord
  | .decode m => record c m
  | .countConsumed r | .deliver r => some r.timeless
  | _ => none

/-- A message that has been polled and will be counted as malformed. -/
def Reader.rejecting (c : Codec) : Reader → Bool
  | .decode m => (record c m).isNone
  | .countMalformed => true
  | _ => false

/-- Between the count and the return. -/
def Reader.delivering : Reader → Bool
  | .deliver _ => true
  | _ => false

/-- No message is in the reader's hands. -/
def Reader.emptyHanded : Reader → Bool
  | .idle | .stopTest | .poll => true
  | _ => false

/-- Every polled message is returned or counted, or is the one in hand. -/
structure Accounted (c : Codec) (out : ConsumedRecord) (s : State) : Prop where
  records : s.records.map ConsumedRecord.timeless ++ (s.reader.pending c).toList =
    s.messages.filterMap (record c)
  malformed : s.messagesMalformed + (s.reader.rejecting c).toNat =
    s.messages.countP fun m => (record c m).isNone
  consumed : s.messagesConsumed = s.records.length + s.reader.delivering.toNat
  out : s.out = s.records.getLastD out
  refused : none ∈ s.returns → s.stopRequested = true
  inHand : ∀ m, s.reader = .decode m → m ∈ s.messages
  caught : ∀ e, s.reader ≠ .threw e

theorem accounted_initial : Accounted c out (initial out) := by
  constructor <;> simp [initial, State.records, State.messages, Reader.pending, Reader.rejecting,
    Reader.delivering, List.reduceOption]

theorem messages_step (h : Step c s a t) {m : Message} (hm : m ∈ s.messages) : m ∈ t.messages := by
  cases h with
  | pollNothing | pollMessage =>
    simp only [State.messages, List.filterMap_append]
    exact List.mem_append_left _ hm
  | _ => exact hm

theorem record_malformed {m : Message} (h : decodeRecord c m.payload = .ok none) :
    record c m = none := by
  simp [record, pair, TickForge.decodeEvent, h, Except.toOption]

/-- The arrival time is all that the consumer adds to the decoded event. -/
theorem record_event {m : Message} {event : MarketEvent} (now : Int64)
    (h : decodeRecord c m.payload = .ok (some event)) :
    record c m = some (ConsumedRecord.timeless
      ⟨{ event with ingestTime := now }, m.partition, m.offset⟩) := by
  have ht := decodeRecord_timeless h
  simp only [MarketEvent.timeless] at ht
  simp [record, pair, TickForge.decodeEvent, h, Except.toOption, ConsumedRecord.timeless,
    MarketEvent.timeless, ht]

/-- A step that leaves counters, returns and polls alone, and what is in hand to be the same. -/
theorem Accounted.keep (ha : Accounted c out s) (r : Reader)
    (hp : r.pending c = s.reader.pending c) (hr : r.rejecting c = s.reader.rejecting c)
    (hd : r.delivering = s.reader.delivering) (hm : ∀ m, r ≠ .decode m)
    (he : ∀ e, r ≠ .threw e) : Accounted c out { s with reader := r } := by
  refine ⟨?_, ?_, ?_, ha.out, ha.refused, fun m h => (hm m h).elim, he⟩
  · simp only [hp]
    exact ha.records
  · simp only [hr]
    exact ha.malformed
  · simp only [hd]
    exact ha.consumed

theorem accounted_poll {p : Poll} (h : Step c s (.poll p) t) (ha : Accounted c out s) :
    Accounted c out t := by
  obtain ⟨hrec, hmal, hcon, hout, href, -, -⟩ := ha
  cases h with
  | pollNothing hr hp =>
    rw [hr] at hrec hmal hcon
    refine ⟨?_, ?_, hcon, hout, href, by simp, by simp⟩
    · simpa [State.records, State.messages, hp, Reader.pending] using hrec
    · simpa [State.messages, hp, Reader.rejecting] using hmal
  | @pollMessage m hr =>
    rw [hr] at hrec hmal hcon
    refine ⟨?_, ?_, hcon, hout, href, ?_, by simp⟩
    · cases hm : record c m <;>
        simpa [State.records, State.messages, Poll.message?, Reader.pending, hm] using hrec
    · cases hm : record c m <;>
        simpa [State.messages, Poll.message?, Reader.rejecting, hm] using hmal
    · intro m' hm'
      cases hm'
      simp [State.messages, Poll.message?]

theorem accounted_step (h : Step c s a t) (hno : ∀ m ∈ s.messages, ¬ Overflowing c m.payload)
    (ha : Accounted c out s) : Accounted c out t := by
  cases h with
  | pollNothing hr hp => exact accounted_poll (.pollNothing hr hp) ha
  | pollMessage hr => exact accounted_poll (.pollMessage hr) ha
  | call hr | loop hr _ =>
    refine ha.keep _ ?_ ?_ ?_ (by simp) (by simp) <;>
      simp [hr, Reader.pending, Reader.rejecting, Reader.delivering]
  | decodeMalformed hr hd =>
    have hm := record_malformed hd
    refine ha.keep _ ?_ ?_ ?_ (by simp) (by simp) <;>
      simp [hr, hm, Reader.pending, Reader.rejecting, Reader.delivering]
  | decodeEvent now hr hd =>
    have hm := record_event now hd
    refine ha.keep _ ?_ ?_ ?_ (by simp) (by simp) <;>
      simp [hr, hm, Reader.pending, Reader.rejecting, Reader.delivering]
  | @decodeThrows m e hr hd =>
    have hn := hno m (ha.inHand m hr)
    simp [decodeRecord_eq hn] at hd
  | stopSeen hr hs =>
    obtain ⟨hrec, hmal, hcon, hout, -, -, -⟩ := ha
    rw [hr] at hrec hmal hcon
    refine ⟨?_, hmal, ?_, ?_, fun _ => hs, by simp, by simp⟩
    · simpa [State.records, State.messages, List.reduceOption, Reader.pending] using hrec
    · simpa [State.records, List.reduceOption, Reader.delivering] using hcon
    · simpa [State.records, List.reduceOption] using hout
  | countMalformed hr =>
    obtain ⟨hrec, hmal, hcon, hout, href, -, -⟩ := ha
    rw [hr] at hrec hmal hcon
    refine ⟨hrec, ?_, hcon, hout, href, by simp, by simp⟩
    simpa [State.messages, Reader.rejecting] using hmal
  | countConsumed hr =>
    obtain ⟨hrec, hmal, hcon, hout, href, -, -⟩ := ha
    rw [hr] at hrec hmal hcon
    refine ⟨hrec, hmal, ?_, hout, href, by simp, by simp⟩
    simpa [State.records, Reader.delivering] using hcon
  | deliver hr =>
    obtain ⟨hrec, hmal, hcon, -, href, -, -⟩ := ha
    rw [hr] at hrec hmal hcon
    refine ⟨?_, hmal, ?_, ?_, ?_, by simp, by simp⟩
    · simpa [State.records, State.messages, List.reduceOption, Reader.pending] using hrec
    · simpa [State.records, List.reduceOption, Reader.delivering] using hcon
    · simp [State.records, List.reduceOption]
    · simpa using href
  | stop =>
    exact ⟨ha.records, ha.malformed, ha.consumed, ha.out, fun _ => rfl, ha.inHand, ha.caught⟩

theorem accounted_reachable (h : Reachable (Step c) (initial out) s)
    (hno : ∀ m ∈ s.messages, ¬ Overflowing c m.payload) : Accounted c out s := by
  refine h.invariant
    (P := fun s => (∀ m ∈ s.messages, ¬ Overflowing c m.payload) → Accounted c out s)
    (fun _ => accounted_initial) ?_ hno
  intro t a u ht hs hno
  have hno' : ∀ m ∈ t.messages, ¬ Overflowing c m.payload := by
    intro m hm
    exact hno m (messages_step hs hm)
  exact accounted_step hs hno' (ht hno')

theorem Reader.emptyHanded_keeps {r : Reader} (c : Codec) (h : r.emptyHanded = true) :
    r.pending c = none ∧ r.rejecting c = false ∧ r.delivering = false := by
  cases r <;> simp_all [Reader.emptyHanded, Reader.pending, Reader.rejecting, Reader.delivering]

/-- Every script of polls can be met, one poll after the other. -/
theorem polls_reachable (c : Codec) (out : ConsumedRecord) (polls : List Poll)
    (hno : ∀ m ∈ polls.filterMap Poll.message?, ¬ Overflowing c m.payload) :
    ∃ s, Reachable (Step c) (initial out) s ∧ s.polled = polls ∧ s.reader = .poll ∧
      s.stopRequested = false := by
  induction polls using List.reverseRecOn with
  | nil =>
    have h₁ : Reachable (Step c) (initial out) _ := (Reachable.refl _).snoc (.call rfl)
    exact ⟨_, h₁.snoc (.loop rfl rfl), rfl, rfl, rfl⟩
  | append_singleton polls p ih =>
    rw [List.filterMap_append] at hno
    obtain ⟨s, hs, hpolled, hr, hstop⟩ := ih fun m hm => hno m (List.mem_append_left _ hm)
    cases hp : p.message? with
    | none =>
      have h₁ := hs.snoc (.pollNothing hr hp)
      exact ⟨_, h₁.snoc (.loop rfl hstop), by simp [hpolled], rfl, hstop⟩
    | some m =>
      obtain rfl : p = .message m := by
        cases p <;> simp_all [Poll.message?]
      have h₁ := hs.snoc (.pollMessage (m := m) hr)
      have hd := decodeRecord_eq (hno m (by simp [Poll.message?]))
      cases he : decodeEvent c m.payload with
      | none =>
        rw [he] at hd
        have h₂ := h₁.snoc (.decodeMalformed rfl hd)
        have h₃ := h₂.snoc (.countMalformed rfl)
        exact ⟨_, h₃.snoc (.loop rfl hstop), by simp [hpolled], rfl, hstop⟩
      | some event =>
        rw [he] at hd
        have h₂ := h₁.snoc (.decodeEvent 0 rfl hd)
        have h₃ := h₂.snoc (.countConsumed rfl)
        have h₄ := h₃.snoc (.deliver rfl)
        have h₅ := h₄.snoc (.call rfl)
        exact ⟨_, h₅.snoc (.loop rfl hstop), by simp [hpolled], rfl, hstop⟩

/-- A timeout, an error or the end of a partition leaves no trace. -/
theorem pollNothing_effect {p : Poll} (h : Step c s (.poll p) t) (hp : p.message? = none) :
    t.messagesConsumed = s.messagesConsumed ∧ t.messagesMalformed = s.messagesMalformed ∧
      t.out = s.out ∧ t.returns = s.returns := by
  cases h with
  | pollNothing => exact ⟨rfl, rfl, rfl, rfl⟩
  | pollMessage => simp [Poll.message?] at hp

/-- The file that holds one payload a line. -/
def onePerLine (payloads : List Bytes) : Bytes := payloads.flatMap (· ++ [newline])

theorem records_onePerLine {payloads : List Bytes}
    (h : ∀ b ∈ payloads, b ≠ [] ∧ newline ∉ b) :
    ReplaySource.records (onePerLine payloads) = payloads := by
  have hrecords := ReplaySource.records_flatMap_append h []
  rw [List.append_nil] at hrecords
  exact hrecords.trans (List.append_nil payloads)

theorem record_event_eq (c : Codec) (ms : List Message) :
    (ms.filterMap (record c)).map (·.event) =
      ((ms.map (·.payload)).map (decodeEvent c)).reduceOption := by
  induction ms with
  | nil => rfl
  | cons m ms ih =>
    cases hm : decodeEvent c m.payload <;>
      simp_all [record, pair]

theorem record_isNone (c : Codec) (ms : List Message) :
    ms.countP (fun m => (record c m).isNone) =
      ((ms.map (·.payload)).map (decodeEvent c)).countP (·.isNone) := by
  simp [List.countP_map, Function.comp_def, record, pair]

/-- With nothing in hand the account is exact. -/
theorem Accounted.settled (ha : Accounted c out s) (hr : s.reader.emptyHanded = true) :
    s.records.map ConsumedRecord.timeless = s.messages.filterMap (record c) ∧
      s.messagesMalformed = s.messages.countP (fun m => (record c m).isNone) ∧
      s.messagesConsumed = s.records.length := by
  obtain ⟨hpend, hrej, hdel⟩ := Reader.emptyHanded_keeps c hr
  refine ⟨?_, ?_, ?_⟩
  · simpa [hpend] using ha.records
  · simpa [hrej] using ha.malformed
  · simpa [hdel] using ha.consumed

/-- Then the consumer has produced what a replay of the payloads produces. -/
theorem Accounted.replay (ha : Accounted c out s) (hr : s.reader.emptyHanded = true)
    (hno : ∀ m ∈ s.messages, ¬ Overflowing c m.payload)
    (hlines : ∀ m ∈ s.messages, m.payload ≠ [] ∧ newline ∉ m.payload) (clock : ℕ → Int64) :
    ∃ delivered final,
      ReplaySource.drain c clock (.start (onePerLine (s.messages.map (·.payload)))) =
        .ok (delivered, final) ∧
      delivered.map MarketEvent.timeless = s.records.map (·.event.timeless) ∧
      final.linesMalformed = s.messagesMalformed ∧ final.input = [] := by
  obtain ⟨hrec, hmal, -⟩ := ha.settled hr
  have hall : decodeAll c (ReplaySource.records (onePerLine (s.messages.map (·.payload)))) =
      .ok ((s.messages.map (·.payload)).map (decodeEvent c)) := by
    rw [records_onePerLine (by simpa using hlines)]
    exact decodeAll_eq (by simpa using hno)
  obtain ⟨delivered, hd, heq⟩ := ReplaySource.drain_ok (r := ReplaySource.start _) clock hall
  refine ⟨delivered, _, hd, ?_, ?_, rfl⟩
  · rw [heq, ← record_event_eq, ← hrec, List.map_map]
    rfl
  · simp [ReplaySource.start, hmal, record_isNone]

/-- And what the function of its polls computes. -/
theorem Accounted.refines_consume (ha : Accounted c out s) (hr : s.reader.emptyHanded = true)
    (hno : ∀ m ∈ s.messages, ¬ Overflowing c m.payload) (clock : ℕ → Int64) :
    ∃ records, KafkaEventConsumer.consume c clock (s.polled.map .poll) {} =
        .ok (records, ⟨s.messagesConsumed, s.messagesMalformed⟩) ∧
      records.map ConsumedRecord.timeless = s.records.map ConsumedRecord.timeless := by
  obtain ⟨hrec, hmal, hcon⟩ := ha.settled hr
  have hall : decodeAll c (s.messages.map (·.payload)) =
      .ok ((s.messages.map (·.payload)).map (decodeEvent c)) := decodeAll_eq (by simpa using hno)
  obtain ⟨records, hd, heq⟩ := consume_ok (k := {}) clock hall
  have hpairs : List.zipWith pair s.messages ((s.messages.map (·.payload)).map (decodeEvent c)) =
      s.messages.map (record c) := by
    rw [List.map_map, List.zipWith_map_right, List.zipWith_self]
    rfl
  have hrecords : records.map ConsumedRecord.timeless =
      s.records.map ConsumedRecord.timeless := by
    rw [heq, hrec, ← State.messages, hpairs, List.reduceOption, List.filterMap_map]
    rfl
  have hsome : ((s.messages.map (·.payload)).map (decodeEvent c)).countP (·.isSome) =
      s.messagesConsumed := by
    have hlen := congrArg List.length hrec
    rw [List.length_map, List.length_filterMap_eq_countP] at hlen
    rw [hcon, hlen]
    simp [List.countP_map, Function.comp_def, record, pair]
  refine ⟨records, ?_, hrecords⟩
  rw [hd, hmal, record_isNone, hsome]
  simp

/-- The reader's steps while it has a message in hand. -/
def Finishing (c : Codec) (s : State) (a : Action) (t : State) : Prop :=
  Step c s a t ∧ a = .reader ∧ s.reader.emptyHanded = false

/-- How many of them are left at most. -/
def Reader.distance : Reader → ℕ
  | .decode _ => 3
  | .countConsumed _ => 2
  | .countMalformed | .deliver _ => 1
  | _ => 0

theorem finishing_polled (h : Finishing c s a t) : t.polled = s.polled := by
  obtain ⟨h, rfl, -⟩ := h
  cases h <;> rfl

theorem finishing_distance (h : Finishing c s a t) (ht : ∀ e, t.reader ≠ .threw e) :
    t.reader.distance < s.reader.distance := by
  obtain ⟨h, rfl, hr⟩ := h
  cases h <;> simp_all [Reader.distance, Reader.emptyHanded]

theorem Accounted.progress (ha : Accounted c out s)
    (hno : ∀ m ∈ s.messages, ¬ Overflowing c m.payload) :
    s.reader.emptyHanded = true ∨ ∃ a t, Finishing c s a t := by
  cases hr : s.reader with
  | idle | stopTest | poll => exact Or.inl rfl
  | decode m =>
    right
    have hd := decodeRecord_eq (hno m (ha.inHand m hr))
    cases he : decodeEvent c m.payload with
    | none => exact ⟨_, _, .decodeMalformed hr (he ▸ hd), rfl, by simp [hr, Reader.emptyHanded]⟩
    | some event => exact ⟨_, _, .decodeEvent 0 hr (he ▸ hd), rfl, by simp [hr, Reader.emptyHanded]⟩
  | countMalformed => exact Or.inr ⟨_, _, .countMalformed hr, rfl, by simp [hr, Reader.emptyHanded]⟩
  | countConsumed r => exact Or.inr ⟨_, _, .countConsumed hr, rfl, by simp [hr, Reader.emptyHanded]⟩
  | deliver r => exact Or.inr ⟨_, _, .deliver hr, rfl, by simp [hr, Reader.emptyHanded]⟩
  | threw e => exact (ha.caught e hr).elim

/-- A message in hand is returned or counted whatever `stop()` does: no step on the way
reads its flag. -/
theorem Accounted.finishes (ha : Accounted c out s)
    (hno : ∀ m ∈ s.messages, ¬ Overflowing c m.payload) :
    Within (Finishing c) (fun t => t.reader.emptyHanded = true) 3 s := by
  refine within_of_rank
    (I := fun s => Accounted c out s ∧ ∀ m ∈ s.messages, ¬ Overflowing c m.payload)
    (fun s => s.reader.distance) ?_ ?_ ?_ ⟨ha, hno⟩ ?_
  · rintro s a t ⟨ha, hno⟩ h
    refine ⟨accounted_step h.1 hno ha, ?_⟩
    rwa [State.messages, finishing_polled h]
  · rintro s a t ⟨ha, hno⟩ h
    exact finishing_distance h (accounted_step h.1 hno ha).caught
  · rintro s ⟨ha, hno⟩
    exact ha.progress hno
  · cases s.reader <;> simp [Reader.distance]

/-- The consumer and the replay are one decoder. The first part holds in every state, with
`stop()` at any moment: a polled message is returned under its own partition and offset, or
counted, or in hand and soon one of the two. The second part says that every script of
polls has such a run. -/
theorem consumer_is_replay_decoder (c : Codec) (out : ConsumedRecord) :
    (∀ s, Reachable (Step c) (initial out) s →
      (∀ m ∈ s.messages, ¬ Overflowing c m.payload) →
        s.records.map ConsumedRecord.timeless ++ (s.reader.pending c).toList =
          s.messages.filterMap (record c) ∧
        s.messagesMalformed + (s.reader.rejecting c).toNat =
          s.messages.countP (fun m => (record c m).isNone) ∧
        Within (Finishing c) (fun t => t.reader.emptyHanded = true) 3 s ∧
        s.messagesConsumed = s.records.length + s.reader.delivering.toNat ∧
        s.out = s.records.getLastD out ∧
        (none ∈ s.returns → s.stopRequested = true) ∧
        (∀ p t, p.message? = none → Step c s (.poll p) t →
          t.messagesConsumed = s.messagesConsumed ∧
          t.messagesMalformed = s.messagesMalformed ∧ t.out = s.out ∧ t.returns = s.returns) ∧
        (s.reader.emptyHanded = true →
          (∀ m ∈ s.messages, m.payload ≠ [] ∧ newline ∉ m.payload) → ∀ clock,
          ∃ delivered final,
            ReplaySource.drain c clock (.start (onePerLine (s.messages.map (·.payload)))) =
              .ok (delivered, final) ∧
            delivered.map MarketEvent.timeless = s.records.map (·.event.timeless) ∧
            final.linesMalformed = s.messagesMalformed ∧ final.input = [])) ∧
    (∀ polls : List Poll, (∀ m ∈ polls.filterMap Poll.message?, ¬ Overflowing c m.payload) →
      ∃ s, Reachable (Step c) (initial out) s ∧ s.polled = polls ∧
        s.reader.emptyHanded = true) := by
  refine ⟨?_, ?_⟩
  · intro s h hno
    have ha := accounted_reachable h hno
    exact ⟨ha.records, ha.malformed, ha.finishes hno, ha.consumed, ha.out, ha.refused,
      fun p t hp hs => pollNothing_effect hs hp,
      fun hr hlines clock => ha.replay hr hno hlines clock⟩
  · intro polls hno
    obtain ⟨s, hs, hpolled, hr, -⟩ := polls_reachable c out polls hno
    exact ⟨s, hs, hpolled, by rw [hr]; rfl⟩

/-- A timeout, a trade, the end of a partition, and a payload that is not JSON. -/
def samplePolls : List Poll :=
  [.timeout, .message ⟨3, 17, compact.text (marketEventToJson sampleEvent)⟩, .error true,
    .message ⟨3, 18, utf8 "x"⟩]

theorem messages_sample : samplePolls.filterMap Poll.message? =
    [⟨3, 17, compact.text (marketEventToJson sampleEvent)⟩, ⟨3, 18, utf8 "x"⟩] := rfl

theorem not_overflowing_sample :
    ∀ m ∈ samplePolls.filterMap Poll.message?, ¬ Overflowing compact m.payload := by
  have htrade : ¬ Overflowing compact (compact.text (marketEventToJson sampleEvent)) :=
    decodeRecord_total_iff.mp ⟨_, decodeRecord_text compact_lawful sampleEvent_encodable⟩
  have hx : ¬ Overflowing compact (utf8 "x") := by
    have : compact.accepts (utf8 "x") = false := by decide +kernel
    simp [Overflowing, this]
  rw [messages_sample, List.forall_mem_cons, List.forall_mem_singleton]
  exact ⟨htrade, hx⟩

theorem consumer_is_replay_decoder_sample :
    ∃ s, Reachable (Step compact) (initial ⟨{}, 0, 0⟩) s ∧ s.polled = samplePolls ∧
      s.messagesConsumed = s.records.length ∧
      ∃ delivered final,
        ReplaySource.drain compact (fun _ => 5)
          (.start (onePerLine (s.messages.map (·.payload)))) = .ok (delivered, final) ∧
        delivered.map MarketEvent.timeless = s.records.map (·.event.timeless) ∧
        final.linesMalformed = s.messagesMalformed := by
  obtain ⟨s, hs, hpolled, hr, -⟩ :=
    polls_reachable compact ⟨{}, 0, 0⟩ samplePolls not_overflowing_sample
  have hms : s.messages = samplePolls.filterMap Poll.message? := by rw [State.messages, hpolled]
  have hlines : ∀ m ∈ s.messages, m.payload ≠ [] ∧ newline ∉ m.payload := by
    have hj := sampleEvent_encodable.printable
    rw [hms, messages_sample, List.forall_mem_cons, List.forall_mem_singleton]
    exact ⟨⟨compact_lawful.text_ne_nil hj, compact_lawful.newline_notMem hj⟩, by decide⟩
  obtain ⟨-, -, -, hcon, -, -, -, hreplay⟩ :=
    (consumer_is_replay_decoder compact ⟨{}, 0, 0⟩).1 s hs (hms ▸ not_overflowing_sample)
  obtain ⟨delivered, final, hd, heq, hmal, -⟩ := hreplay (by rw [hr]; rfl) hlines fun _ => 5
  exact ⟨s, hs, hpolled, by simpa [hr, Reader.delivering] using hcon, delivered, final, hd, heq,
    hmal⟩

end TickForge.KafkaEventConsumer.Loop
