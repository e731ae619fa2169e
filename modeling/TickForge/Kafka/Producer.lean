import Mathlib.Logic.Function.Basic
import TickForge.MarketEvent.Wire

/-! The producer's `publish()` and the partitions its messages go to. -/
namespace TickForge

open ByteString Nlohmann

/-- A message as `rd_kafka_producev` takes it. -/
structure Entry where
  key : Bytes
  payload : Bytes
  deriving DecidableEq

/-- The messages of each partition: accepted and still on their way, and appended. None is lost
between the two, sent twice or overtaken. -/
structure Broker where
  outbox : ℕ → List Entry
  log : ℕ → List Entry

namespace Broker

def empty : Broker := ⟨fun _ => [], fun _ => []⟩

/-- A locally accepted message waits for its partition. -/
def produce (b : Broker) (p : ℕ) (m : Entry) : Broker :=
  { b with outbox := Function.update b.outbox p (b.outbox p ++ [m]) }

/-- The first waiting message of a partition is appended to its log. -/
def append (b : Broker) (p : ℕ) : Broker where
  outbox := Function.update b.outbox p (b.outbox p).tail
  log := Function.update b.log p (b.log p ++ (b.outbox p).head?.toList)

/-- What a partition has been given, appended or not. -/
def given (b : Broker) (p : ℕ) : List Entry := b.log p ++ b.outbox p

theorem given_append (b : Broker) (p q : ℕ) : (b.append p).given q = b.given q := by
  by_cases h : q = p
  · subst h
    cases hb : b.outbox q <;> simp [append, given, hb]
  · simp [append, given, h]

theorem append_log_prefix (b : Broker) (p q : ℕ) : b.log q <+: (b.append p).log q := by
  by_cases h : q = p
  · subst h
    simp [append]
  · simp [append, h]

theorem given_produce_self (b : Broker) (p : ℕ) (m : Entry) :
    (b.produce p m).given p = b.given p ++ [m] := by
  simp [produce, given]

theorem given_produce_of_ne {p q : ℕ} (b : Broker) (m : Entry) (h : q ≠ p) :
    (b.produce p m).given q = b.given q := by
  simp [produce, given, h]

end Broker

/-- `publish()`: the key is the symbol, and `accepted` is whether `rd_kafka_producev`
takes the message; its partition is a function of the key. -/
def KafkaEventProducer.publish (c : Codec) (partitioner : Bytes → ℕ) (accepted : Bool)
    (b : Broker) (event : MarketEvent) : Except Exception (Bool × Broker) := do
  let payload ← c.dump (marketEventToJson event)
  if accepted then
    return (true, b.produce (partitioner event.symbol) ⟨event.symbol, payload⟩)
  return (false, b)

/-- What an accepted event adds to its partition. -/
def entry (c : Codec) (event : MarketEvent) : Entry :=
  ⟨event.symbol, c.text (marketEventToJson event)⟩

theorem publish_ok {c : Codec} {partitioner : Bytes → ℕ} {accepted ok : Bool} {b b' : Broker}
    {event : MarketEvent}
    (h : KafkaEventProducer.publish c partitioner accepted b event = .ok (ok, b')) :
    ok = accepted ∧
      b' = if ok then b.produce (partitioner event.symbol) (entry c event) else b := by
  rw [KafkaEventProducer.publish, Codec.dump] at h
  by_cases hu : (marketEventToJson event).utf8Valid = true
  · cases accepted <;> simp_all [bind, Except.bind, pure, Except.pure, entry]
  · simp [hu, bind, Except.bind] at h

theorem publish_utf8Valid {c : Codec} {partitioner : Bytes → ℕ} {event : MarketEvent} {p : ℕ}
    (h : (marketEventToJson event).utf8Valid = true) (hp : partitioner event.symbol = p)
    (b : Broker) : KafkaEventProducer.publish c partitioner true b event =
      .ok (true, b.produce p (entry c event)) := by
  simp [KafkaEventProducer.publish, Codec.dump, h, bind, Except.bind, pure, Except.pure, entry,
    hp]

end TickForge
