import TickForge.Kafka.Consumer
import TickForge.Kafka.Producer
import TickForge.Lib.Ownership

/-! The handles of the client library that the producer and the consumer own. -/
namespace TickForge.Handles

open ByteString Nlohmann Ownership

/-- What the library allocates: a configuration, a client, a list of topics, a message. -/
inductive Handle where
  | conf
  | client
  | topics
  | message
  deriving DecidableEq, Repr

/-- What leaves a member function. -/
inductive Thrown where
  | runtimeError (what : Bytes)
  | json (e : Exception)

/-- What the library answers, with the text of its refusal. -/
structure Library where
  confSet : Bytes → Bytes → Option Bytes
  create : Option Bytes

abbrev Member := Call Handle Thrown

/-- `rd_kafka_new`: a client takes its configuration over, a failure leaves it to the caller. -/
def create (lib : Library) (message : Bytes) : Member Unit := do
  use .conf
  match lib.create with
  | some errstr => do
    release .conf
    raise (.runtimeError (message ++ errstr))
  | none => do
    release .conf
    acquire .client

namespace KafkaEventProducer

def construct (lib : Library) (brokers : Bytes) : Member Unit := do
  acquire .conf
  use .conf
  match lib.confSet (utf8 "bootstrap.servers") brokers with
  | some errstr => do
    release .conf
    raise (.runtimeError (utf8 "KafkaEventProducer: " ++ errstr))
  | none => do
    -- `rd_kafka_conf_set_opaque`, then `rd_kafka_conf_set_dr_msg_cb`
    use .conf
    use .conf
    create lib (utf8 "KafkaEventProducer: failed to create producer: ")

/-- `rd_kafka_producev`, then `rd_kafka_poll`; an event that cannot be dumped reaches neither. -/
def publish (c : Codec) (event : MarketEvent) : Member Unit := do
  match c.dump (marketEventToJson event) with
  | .error e => raise (.json e)
  | .ok _ => do
    use .client
    use .client

def flush : Member Unit := use .client

def destroy : Member Unit := do
  flush
  release .client

/-- The member functions that a caller can use. -/
inductive MemberCall where
  | publish (event : MarketEvent)
  | flush

def MemberCall.run (c : Codec) : MemberCall → Member Unit
  | .publish event => KafkaEventProducer.publish c event
  | .flush => KafkaEventProducer.flush

end KafkaEventProducer

namespace KafkaEventConsumer

open TickForge.KafkaEventConsumer (Turn Outcome)

def setConfOrThrow (lib : Library) (key value : Bytes) : Member Unit := do
  use .conf
  match lib.confSet key value with
  | some errstr => do
    release .conf
    raise (.runtimeError (utf8 "KafkaEventConsumer: " ++ errstr))
  | none => pure ()

/-- What the constructor hands to the library. -/
structure Config where
  brokers : Bytes := utf8 "localhost:9092"
  groupId : Bytes := utf8 "tickforge-consumer"
  autoOffsetReset : Bytes := utf8 "earliest"

def construct (lib : Library) (config : Config) : Member Unit := do
  acquire .conf
  setConfOrThrow lib (utf8 "bootstrap.servers") config.brokers
  setConfOrThrow lib (utf8 "group.id") config.groupId
  setConfOrThrow lib (utf8 "auto.offset.reset") config.autoOffsetReset
  create lib (utf8 "KafkaEventConsumer: failed to create consumer: ")
  -- `rd_kafka_poll_set_consumer`
  use .client

/-- `start()`; `refusal` is the text of the error that `rd_kafka_subscribe` returns. -/
def start (refusal : Option Bytes) : Member Unit := do
  acquire .topics
  use .topics
  use .client
  use .topics
  release .topics
  match refusal with
  | some text => raise (.runtimeError (utf8 "KafkaEventConsumer: subscribe failed: " ++ text))
  | none => pure ()

/-- `next()` with the messages it polls. -/
def next (c : Codec) (now : Int64) :
    List Turn → TickForge.KafkaEventConsumer → Member (Outcome × TickForge.KafkaEventConsumer)
  | [], k => pure (.polling, k)
  | .stopRequested :: _, k => pure (.stopped, k)
  | .poll .timeout :: later, k => do
    use .client
    next c now later k
  | .poll (.error _) :: later, k => do
    use .client
    acquire .message
    use .message
    release .message
    next c now later k
  | .poll (.message m) :: later, k => do
    use .client
    acquire .message
    use .message
    -- payload, partition and offset are copied before the message goes
    use .message
    release .message
    match decodeRecord c m.payload with
    | .error e => raise (.json e)
    | .ok none => next c now later { k with messagesMalformed := k.messagesMalformed + 1 }
    | .ok (some event) =>
      pure (.returned ⟨{ event with ingestTime := now }, m.partition, m.offset⟩ later,
        { k with messagesConsumed := k.messagesConsumed + 1 })

/-- `rd_kafka_consumer_close`, then `rd_kafka_destroy`. -/
def destroy : Member Unit := do
  use .client
  release .client

/-- The member functions that a caller can use; `stop()` is a turn of `next()`. -/
inductive MemberCall where
  | start (refusal : Option Bytes)
  | next (now : Int64) (turns : List Turn) (k : TickForge.KafkaEventConsumer)

def MemberCall.run (c : Codec) : MemberCall → Member Unit
  | .start refusal => KafkaEventConsumer.start refusal
  | .next now turns k => do
    let _ ← KafkaEventConsumer.next c now turns k

end KafkaEventConsumer

variable {c : Codec} {lib : Library}

/-- The client is there exactly if the call returned. -/
def Constructed (r : Except Thrown Unit) (live : List Handle) : Prop :=
  live = if r.isOk then [.client] else []

theorem create_ends (lib : Library) (message : Bytes) :
    Ends (create lib message) [.conf] Constructed := by
  refine Ends.use (by simp) ?_
  cases lib.create with
  | some errstr => exact Ends.release (by simp) (Ends.raise rfl)
  | none => exact Ends.release (by simp) ⟨_, _, rfl, rfl⟩

namespace KafkaEventProducer

theorem construct_ends (lib : Library) (brokers : Bytes) :
    Ends (construct lib brokers) [] Constructed := by
  refine Ends.acquire (by simp) (Ends.use (by simp) ?_)
  cases lib.confSet (utf8 "bootstrap.servers") brokers with
  | some errstr => exact Ends.release (by simp) (Ends.raise rfl)
  | none => exact Ends.use (by simp) (Ends.use (by simp) (create_ends lib _))

theorem run_ends (c : Codec) (call : MemberCall) :
    Ends (call.run c) [.client] fun _ live => live = [.client] := by
  cases call with
  | publish event =>
    rw [MemberCall.run, publish]
    cases c.dump (marketEventToJson event) with
    | error e => exact Ends.raise rfl
    | ok payload => exact Ends.use (by simp) ⟨_, _, rfl, rfl⟩
  | flush => exact ⟨_, _, rfl, rfl⟩

theorem destroy_ends : Ends destroy [.client] fun _ live => live = [] :=
  Ends.use (by simp) ⟨_, _, rfl, rfl⟩

end KafkaEventProducer

namespace KafkaEventConsumer

open TickForge.KafkaEventConsumer (Turn Outcome)

/-- A configuration that is refused has been destroyed. -/
theorem setConfOrThrow_ends (lib : Library) (key value : Bytes) :
    Ends (setConfOrThrow lib key value) [.conf]
      fun r live => live = if r.isOk then [.conf] else [] := by
  refine Ends.use (by simp) ?_
  cases lib.confSet key value with
  | some errstr => exact Ends.release (by simp) (Ends.raise rfl)
  | none => exact Ends.pure rfl

/-- One more setting, and what follows if the library takes it. -/
theorem setConf_then {key value : Bytes} {rest : Member Unit}
    (h : Ends rest [.conf] Constructed) :
    Ends (do setConfOrThrow lib key value; rest) [.conf] Constructed := by
  refine Ends.bind (setConfOrThrow_ends lib key value) ?_ ?_
  · rintro - live rfl
    exact h
  · rintro e live rfl
    rfl

theorem construct_ends (lib : Library) (config : Config) :
    Ends (construct lib config) [] Constructed := by
  refine Ends.acquire (by simp) (setConf_then (setConf_then (setConf_then ?_)))
  refine Ends.bind (create_ends lib _) ?_ ?_
  · rintro - live rfl
    exact ⟨_, _, rfl, rfl⟩
  · rintro e live rfl
    rfl

theorem start_ends (refusal : Option Bytes) :
    Ends (start refusal) [.client] fun _ live => live = [.client] := by
  refine Ends.acquire (by simp) (Ends.use (by simp) (Ends.use (by simp) (Ends.use (by simp)
    (Ends.release (by simp) ?_))))
  cases refusal with
  | some text => exact Ends.raise rfl
  | none => exact Ends.pure rfl

/-- A message is polled, read and destroyed before anything can throw. -/
theorem message_then {α : Type} {rest : Member α} {Q : Except Thrown α → List Handle → Prop}
    (h : Ends rest [.client] Q) :
    Ends (do
      use .client
      acquire .message
      use .message
      use .message
      release .message
      rest) [.client] Q :=
  Ends.use (by simp) (Ends.acquire (by simp) (Ends.use (by simp) (Ends.use (by simp)
    (Ends.release (by simp) h))))

/-- No round keeps its message, and the call returns or throws what it does without handles. -/
theorem next_ends (c : Codec) (now : Int64) (turns : List Turn)
    (k : TickForge.KafkaEventConsumer) :
    Ends (next c now turns k) [.client] fun r live => live = [.client] ∧
      r = (TickForge.KafkaEventConsumer.next c now turns k).mapError .json := by
  fun_induction TickForge.KafkaEventConsumer.next c now turns k with
  | case1 k => exact Ends.pure ⟨rfl, rfl⟩
  | case2 later k => exact Ends.pure ⟨rfl, rfl⟩
  | case3 later k ih => exact Ends.use (by simp) ih
  | case4 eof later k ih =>
    exact Ends.use (by simp) (Ends.acquire (by simp) (Ends.use (by simp)
      (Ends.release (by simp) ih)))
  | case5 m later k e hd =>
    refine message_then ?_
    rw [hd]
    exact Ends.raise ⟨rfl, rfl⟩
  | case6 m later k hd ih =>
    refine message_then ?_
    rw [hd]
    exact ih
  | case7 m later k event hd =>
    refine message_then ?_
    rw [hd]
    exact Ends.pure ⟨rfl, rfl⟩

theorem run_ends (c : Codec) (call : MemberCall) :
    Ends (call.run c) [.client] fun _ live => live = [.client] := by
  cases call with
  | start refusal => exact start_ends refusal
  | next now turns k =>
    refine Ends.bind (next_ends c now turns k) ?_ ?_
    · rintro r live ⟨rfl, -⟩
      exact Ends.pure rfl
    · rintro e live ⟨rfl, -⟩
      rfl

theorem destroy_ends : Ends destroy [.client] fun _ live => live = [] :=
  Ends.use (by simp) ⟨_, _, rfl, rfl⟩

end KafkaEventConsumer

/-- Over the whole life of a producer or of a consumer, whatever the library refuses, the
events, the polls and the calls that throw, no handle is used before it is there or after it
has gone, none is destroyed twice, and none is left. -/
theorem handles_balanced (c : Codec) (lib : Library) :
    (∀ brokers (calls : List KafkaEventProducer.MemberCall), ∃ r,
      lifetime (KafkaEventProducer.construct lib brokers) (calls.map (·.run c))
        KafkaEventProducer.destroy [] = some (r, [])) ∧
    (∀ config (calls : List KafkaEventConsumer.MemberCall), ∃ r,
      lifetime (KafkaEventConsumer.construct lib config) (calls.map (·.run c))
        KafkaEventConsumer.destroy [] = some (r, [])) ∧
    ∀ now turns k, KafkaEventConsumer.next c now turns k [.client] =
      some ((TickForge.KafkaEventConsumer.next c now turns k).mapError .json, [.client]) := by
  refine ⟨?_, ?_, ?_⟩
  · intro brokers calls
    have hcalls : ∀ call ∈ calls.map (·.run c), Ends call [.client] fun _ live => live = [.client] :=
      List.forall_mem_map.mpr fun call _ => KafkaEventProducer.run_ends c call
    obtain ⟨r, live, hrun, rfl⟩ := Ends.lifetime
      (KafkaEventProducer.construct_ends lib brokers) hcalls KafkaEventProducer.destroy_ends
    exact ⟨r, hrun⟩
  · intro config calls
    have hcalls : ∀ call ∈ calls.map (·.run c), Ends call [.client] fun _ live => live = [.client] :=
      List.forall_mem_map.mpr fun call _ => KafkaEventConsumer.run_ends c call
    obtain ⟨r, live, hrun, rfl⟩ := Ends.lifetime
      (KafkaEventConsumer.construct_ends lib config) hcalls KafkaEventConsumer.destroy_ends
    exact ⟨r, hrun⟩
  · intro now turns k
    obtain ⟨r, live, hrun, rfl, rfl⟩ := KafkaEventConsumer.next_ends c now turns k
    exact hrun

end TickForge.Handles
