import Mathlib.Data.List.ReduceOption
import TickForge.MarketEvent.Wire

/-! The consumer's read loop over what librdkafka polls. -/
namespace TickForge

open ByteString Nlohmann

/-- A record as the broker hands it out. -/
structure Message where
  partition : ℕ
  offset : ℕ
  payload : Bytes
  deriving DecidableEq

/-- What `rd_kafka_consumer_poll` returns. Of an error only a line on `stderr` remains. -/
inductive Poll where
  | timeout
  | error (eof : Bool)
  | message (m : Message)
  deriving DecidableEq

def Poll.message? : Poll → Option Message
  | .message m => some m
  | _ => none

structure ConsumedRecord where
  event : MarketEvent
  partition : ℕ
  offset : ℕ
  deriving DecidableEq

def ConsumedRecord.timeless (r : ConsumedRecord) : ConsumedRecord :=
  { r with event := r.event.timeless }

/-- The two counters. -/
structure KafkaEventConsumer where
  messagesConsumed : ℕ := 0
  messagesMalformed : ℕ := 0
  deriving DecidableEq

namespace KafkaEventConsumer

/-- What one round of the loop meets: a stop request, or the result of its poll. -/
inductive Turn where
  | stopRequested
  | poll (p : Poll)

/-- How a call of `next()` leaves its loop; `polling` while it has not. -/
inductive Outcome where
  | returned (record : ConsumedRecord) (later : List Turn)
  | stopped
  | polling

/-- One call of `next()`, over the rounds that are still to come. -/
def next (c : Codec) (now : Int64) :
    List Turn → KafkaEventConsumer → Except Exception (Outcome × KafkaEventConsumer)
  | [], k => .ok (.polling, k)
  | .stopRequested :: _, k => .ok (.stopped, k)
  | .poll .timeout :: later, k => next c now later k
  | .poll (.error _) :: later, k => next c now later k
  | .poll (.message m) :: later, k =>
    match decodeRecord c m.payload with
    | .error e => .error e
    | .ok none => next c now later { k with messagesMalformed := k.messagesMalformed + 1 }
    | .ok (some event) =>
      .ok (.returned ⟨{ event with ingestTime := now }, m.partition, m.offset⟩ later,
        { k with messagesConsumed := k.messagesConsumed + 1 })

variable {c : Codec} {now : Int64} {turns later : List Turn} {k k' : KafkaEventConsumer}
  {r : ConsumedRecord}

theorem next_consumes (h : next c now turns k = .ok (.returned r later, k')) :
    later.length < turns.length := by
  fun_induction next c now turns k with
  | case1 | case2 | case5 => simp at h
  | case3 k rest ih | case4 k rest _ ih | case6 k rest _ _ ih =>
    have := ih h
    simp only [List.length_cons]
    omega
  | case7 =>
    simp only [Except.ok.injEq, Prod.mk.injEq, Outcome.returned.injEq] at h
    simp [← h.1.2]

/-- `next()` again and again, until it returns false or no more polls are left. -/
def consume (c : Codec) (clock : ℕ → Int64) (turns : List Turn) (k : KafkaEventConsumer) :
    Except Exception (List ConsumedRecord × KafkaEventConsumer) :=
  match _h : next c (clock 0) turns k with
  | .error e => .error e
  | .ok (.returned r later, k') =>
    (consume c (fun i => clock (i + 1)) later k').map fun p => (r :: p.1, p.2)
  | .ok (.stopped, k') => .ok ([], k')
  | .ok (.polling, k') => .ok ([], k')
termination_by turns.length
decreasing_by exact next_consumes _h

/-- A round that does not return leaves the call to the rounds that follow. -/
theorem consume_of_next {clock : ℕ → Int64} {turns' : List Turn}
    (h : ∀ now, next c now turns k = next c now turns' k') :
    consume c clock turns k = consume c clock turns' k' := by
  rw [consume, consume, h]

theorem consume_returned {clock : ℕ → Int64}
    (h : next c (clock 0) turns k = .ok (.returned r later, k')) :
    consume c clock turns k =
      (consume c (fun i => clock (i + 1)) later k').map fun p => (r :: p.1, p.2) := by
  rw [consume]
  split <;> simp_all

/-- The record that a message and its decoding make up. -/
def pair (m : Message) (o : Option MarketEvent) : Option ConsumedRecord :=
  o.map fun e => ⟨e, m.partition, m.offset⟩

/-- Pairing drops no event and adds none. -/
theorem event_pairs {ms : List Message} {os : List (Option MarketEvent)}
    (h : os.length = ms.length) :
    (List.zipWith pair ms os).reduceOption.map (·.event) = os.reduceOption := by
  induction ms generalizing os with
  | nil => simp [List.length_eq_zero_iff.mp h]
  | cons m ms ih =>
    cases os with
    | nil => simp at h
    | cons o os =>
      have := @ih os (by simpa using h)
      cases o <;> simp_all [pair]

/-- Every polled message is decoded once, in poll order, under its own partition and offset. -/
theorem consume_eq (c : Codec) (clock : ℕ → Int64) (polls : List Poll) (k : KafkaEventConsumer) :
    (consume c clock (polls.map .poll) k).map
        (fun p => (p.1.map ConsumedRecord.timeless, p.2)) =
      (decodeAll c ((polls.filterMap Poll.message?).map (·.payload))).map fun os =>
        ((List.zipWith pair (polls.filterMap Poll.message?) os).reduceOption,
          ⟨k.messagesConsumed + os.countP (·.isSome),
            k.messagesMalformed + os.countP (·.isNone)⟩) := by
  induction polls generalizing clock k with
  | nil =>
    have hn : next c (clock 0) [] k = .ok (.polling, k) := rfl
    rw [List.map_nil, consume]
    split <;> simp_all [decodeAll, Except.map, pure, Except.pure]
  | cons p polls ih =>
    cases p with
    | timeout =>
      have hn : ∀ now, next c now (.poll .timeout :: polls.map .poll) k =
          next c now (polls.map .poll) k := fun now => rfl
      rw [List.map_cons, consume_of_next hn, ih]
      rfl
    | error eof =>
      have hn : ∀ now, next c now (.poll (.error eof) :: polls.map .poll) k =
          next c now (polls.map .poll) k := fun now => rfl
      rw [List.map_cons, consume_of_next hn, ih]
      rfl
    | message m =>
      simp only [List.map_cons, List.filterMap_cons, Poll.message?, decodeAll_cons]
      cases hd : decodeRecord c m.payload with
      | error e =>
        rw [consume]
        split <;> simp_all [next, Except.map]
      | ok o =>
        cases o with
        | none =>
          have hn : ∀ now, next c now (.poll (.message m) :: polls.map .poll) k =
              next c now (polls.map .poll)
                { k with messagesMalformed := k.messagesMalformed + 1 } :=
            fun now => by rw [next, hd]
          rw [consume_of_next hn, ih]
          cases decodeAll c ((polls.filterMap Poll.message?).map (·.payload)) with
          | error e => rfl
          | ok os => simp [Except.map, pair, Nat.add_assoc, Nat.add_comm 1]
        | some event =>
          have ht := decodeRecord_timeless hd
          have htail := ih (fun i => clock (i + 1))
            { k with messagesConsumed := k.messagesConsumed + 1 }
          rw [consume_returned (by rw [next, hd])]
          generalize consume c (fun i => clock (i + 1)) (polls.map Turn.poll)
            { k with messagesConsumed := k.messagesConsumed + 1 } = tail at htail ⊢
          generalize decodeAll c ((polls.filterMap Poll.message?).map (·.payload)) = os at htail ⊢
          cases tail <;> cases os <;>
            simp_all [Except.map, ConsumedRecord.timeless, MarketEvent.timeless, pair,
              Nat.add_assoc, Nat.add_comm 1]

theorem consume_ok {polls : List Poll} {os : List (Option MarketEvent)} (clock : ℕ → Int64)
    (h : decodeAll c ((polls.filterMap Poll.message?).map (·.payload)) = .ok os) :
    ∃ records, consume c clock (polls.map .poll) k =
        .ok (records, ⟨k.messagesConsumed + os.countP (·.isSome),
          k.messagesMalformed + os.countP (·.isNone)⟩) ∧
      records.map ConsumedRecord.timeless =
        (List.zipWith pair (polls.filterMap Poll.message?) os).reduceOption := by
  have hd := consume_eq c clock polls k
  rw [h] at hd
  cases hr : consume c clock (polls.map .poll) k with
  | error x => simp [hr, Except.map] at hd
  | ok p =>
    obtain ⟨records, final⟩ := p
    simp only [hr, Except.map, Except.ok.injEq, Prod.mk.injEq] at hd
    exact ⟨records, by rw [hd.2], hd.1⟩

theorem consume_error {polls : List Poll} {x : Exception} (clock : ℕ → Int64)
    (h : decodeAll c ((polls.filterMap Poll.message?).map (·.payload)) = .error x) :
    consume c clock (polls.map .poll) k = .error x := by
  have hd := consume_eq c clock polls k
  rw [h] at hd
  cases hr : consume c clock (polls.map .poll) k <;> simp_all [Except.map]

end KafkaEventConsumer

end TickForge
