import TickForge.Lib.Histogram
import TickForge.Lib.Simulation
import TickForge.Kafka.ConsumerLoop

/-! The consumer service: the thread that counts, and the report of `main()` at its end. -/
namespace TickForge.ConsumerService

open Transition Histogram Nlohmann
open KafkaEventConsumer (Loop.Action Loop.Reader Loop.record Loop.initial)

/-- Positions of `consume_thread`. -/
inductive ThreadPC where
  | inNext
  | returned (record : ConsumedRecord)
  | counted (record : ConsumedRecord)
  | tallied (record : ConsumedRecord)
  | done
  deriving DecidableEq

/-- Positions of `main()` from its poll loop on. -/
inductive MainPC where
  | polling
  | stopping
  | joining
  | returned
  deriving DecidableEq, Repr

structure State where
  consumer : KafkaEventConsumer.Loop.State
  thread : ThreadPC
  main : MainPC
  /-- `g_shutdown_requested`. -/
  signalled : Bool
  total : ℕ
  perPartitionCounts : List (ℕ × ℕ)
  /-- The records that went to the terminal. -/
  sampled : List ConsumedRecord

inductive Actor where
  | signal
  | main
  | consumer (action : Loop.Action)
  | thread
  deriving DecidableEq

def initial (out : ConsumedRecord) : State where
  consumer := Loop.initial out
  thread := .inNext
  main := .polling
  signalled := false
  total := 0
  perPartitionCounts := []
  sampled := []

/-- An exception out of `next()` ends the process: its thread takes no further step. -/
inductive Step (c : Codec) : State → Actor → State → Prop where
  | signal {s} : s.signalled = false → Step c s .signal { s with signalled := true }
  | signalSeen {s} : s.main = .polling → s.signalled = true →
      Step c s .main { s with main := .stopping }
  | stop {s k} : s.main = .stopping → KafkaEventConsumer.Loop.Step c s.consumer .stop k →
      Step c s (.consumer .stop) { s with consumer := k, main := .joining }
  | join {s} : s.main = .joining → s.thread = .done →
      Step c s .main { s with main := .returned }
  | inNext {s a k} : s.thread = .inNext → a ≠ .stop →
      KafkaEventConsumer.Loop.Step c s.consumer a k → k.returns = s.consumer.returns →
      Step c s (.consumer a) { s with consumer := k }
  | nextTrue {s a k r} : s.thread = .inNext → a ≠ .stop →
      KafkaEventConsumer.Loop.Step c s.consumer a k →
      k.returns = s.consumer.returns ++ [some r] →
      Step c s (.consumer a) { s with consumer := k, thread := .returned r }
  | nextFalse {s a k} : s.thread = .inNext → a ≠ .stop →
      KafkaEventConsumer.Loop.Step c s.consumer a k →
      k.returns = s.consumer.returns ++ [none] →
      Step c s (.consumer a) { s with consumer := k, thread := .done }
  | countTotal {s r} : s.thread = .returned r →
      Step c s .thread { s with thread := .counted r, total := s.total + 1 }
  | countPartition {s r} : s.thread = .counted r →
      Step c s .thread { s with
        thread := .tallied r, perPartitionCounts := bump r.partition s.perPartitionCounts }
  | sample {s r} : s.thread = .tallied r →
      Step c s .thread { s with
        thread := .inNext
        sampled := if s.total % 20 = 1 then s.sampled ++ [r] else s.sampled }

/-- The consumer's own action behind a label. -/
def consumerLabel : Actor → Option Loop.Action
  | .consumer a => some a
  | _ => none

variable {c : Codec} {out : ConsumedRecord} {s t : State} {a : Actor}

theorem simulates_consumer :
    Simulates (Step c) (KafkaEventConsumer.Loop.Step c) State.consumer consumerLabel
      fun _ => True where
  keeps _ _ := trivial
  visible _ h hl := by
    cases h with
    | stop _ hk | inNext _ _ hk | nextTrue _ _ hk | nextFalse _ _ hk =>
      cases hl
      exact hk
    | _ => cases hl
  hidden _ h hl := by
    cases h with
    | stop | inNext | nextTrue | nextFalse => cases hl
    | _ => rfl

theorem consumer_reachable (h : Reachable (Step c) (initial out) s) :
    Reachable (KafkaEventConsumer.Loop.Step c) (Loop.initial out) s.consumer :=
  (simulates_consumer.reachable trivial h).1

/-- The record that the thread has not put into `total` yet. -/
def ThreadPC.uncounted : ThreadPC → List ConsumedRecord
  | .returned r => [r]
  | _ => []

def ThreadPC.untallied : ThreadPC → List ConsumedRecord
  | .returned r | .counted r => [r]
  | _ => []

def ThreadPC.unsampled : ThreadPC → List ConsumedRecord
  | .returned r | .counted r | .tallied r => [r]
  | _ => []

/-- What the thread has made of the records that `next()` returned. -/
structure Tally (s : State) : Prop where
  total : s.consumer.records.length = s.total + s.thread.uncounted.length
  partitions : ∃ xs, s.consumer.records = xs ++ s.thread.untallied ∧
    s.perPartitionCounts = histogram (xs.map (·.partition))
  sampled : ∃ xs, s.consumer.records = xs ++ s.thread.unsampled ∧ s.sampled = everyNth 20 xs

theorem tally_initial : Tally (initial out) :=
  ⟨rfl, ⟨[], rfl, rfl⟩, ⟨[], rfl, rfl⟩⟩

/-- Inside `next()` nothing is left to count. -/
theorem records_eq {k : KafkaEventConsumer.Loop.State} (h : k.returns = s.consumer.returns) :
    k.records = s.consumer.records := by
  rw [KafkaEventConsumer.Loop.State.records, h]
  rfl

theorem tally_step (h : Step c s a t) (hs : Tally s) : Tally t := by
  obtain ⟨htot, ⟨xs, hxs, hpart⟩, ⟨ys, hys, hsamp⟩⟩ := hs
  cases h with
  | signal | signalSeen | join => exact ⟨htot, ⟨xs, hxs, hpart⟩, ⟨ys, hys, hsamp⟩⟩
  | @stop k hm hk =>
    have hrec : k.records = s.consumer.records := records_eq (by cases hk; rfl)
    exact ⟨by rw [hrec]; exact htot, ⟨xs, hrec.trans hxs, hpart⟩, ⟨ys, hrec.trans hys, hsamp⟩⟩
  | @inNext _ k _ _ hk hret =>
    have hrec := records_eq hret
    exact ⟨by rw [hrec]; exact htot, ⟨xs, hrec.trans hxs, hpart⟩, ⟨ys, hrec.trans hys, hsamp⟩⟩
  | @nextTrue _ k r hth _ hk hret =>
    have hrec : k.records = s.consumer.records ++ [r] := by
      simp [KafkaEventConsumer.Loop.State.records, hret, List.reduceOption]
    rw [hth] at htot hxs hys
    refine ⟨?_, ⟨xs, ?_, hpart⟩, ⟨ys, ?_, hsamp⟩⟩
    · rw [hrec, List.length_append, htot]
      rfl
    · rw [hrec, hxs]
      simp [ThreadPC.untallied]
    · rw [hrec, hys]
      simp [ThreadPC.unsampled]
  | @nextFalse _ k hth _ hk hret =>
    have hrec : k.records = s.consumer.records := by
      simp [KafkaEventConsumer.Loop.State.records, hret, List.reduceOption]
    rw [hth] at htot hxs hys
    exact ⟨by rw [hrec]; exact htot, ⟨xs, hrec.trans hxs, hpart⟩, ⟨ys, hrec.trans hys, hsamp⟩⟩
  | @countTotal r hth =>
    rw [hth] at htot hxs hys
    exact ⟨htot, ⟨xs, hxs, hpart⟩, ⟨ys, hys, hsamp⟩⟩
  | @countPartition r hth =>
    rw [hth] at htot hxs hys
    refine ⟨htot, ⟨xs ++ [r], by simpa [ThreadPC.untallied] using hxs, ?_⟩, ⟨ys, hys, hsamp⟩⟩
    rw [List.map_append, List.map_singleton, histogram_concat, hpart]
  | @sample r hth =>
    rw [hth] at htot hxs hys
    refine ⟨htot, ⟨xs, hxs, hpart⟩, ⟨ys ++ [r], by simpa [ThreadPC.unsampled] using hys, ?_⟩⟩
    have hlen : s.total = ys.length + 1 := by
      rw [hys] at htot
      simpa [ThreadPC.unsampled, ThreadPC.uncounted] using htot.symm
    rw [everyNth_concat, ← hsamp, hlen]

/-- Where the thread is outside `next()`, and what its end means. -/
structure Outside (s : State) : Prop where
  idle : s.thread ≠ .inNext → s.consumer.reader = .idle
  done : s.main = .returned → s.thread = .done
  stopped : s.consumer.stopRequested = true ↔ s.main = .joining ∨ s.main = .returned

/-- A call of `next()` that returns leaves its reader between two calls. -/
theorem reader_returned {k k' : KafkaEventConsumer.Loop.State} {b : Loop.Action}
    {o : Option ConsumedRecord} (h : KafkaEventConsumer.Loop.Step c k b k')
    (hr : k'.returns = k.returns ++ [o]) :
    k'.reader = .idle ∧ k'.stopRequested = k.stopRequested := by
  cases h with
  | stopSeen | deliver => exact ⟨rfl, rfl⟩
  | _ => simp at hr

theorem stopRequested_eq {k k' : KafkaEventConsumer.Loop.State} {b : Loop.Action}
    (h : KafkaEventConsumer.Loop.Step c k b k') (hb : b ≠ .stop) :
    k'.stopRequested = k.stopRequested := by
  cases h with
  | stop => exact (hb rfl).elim
  | _ => rfl

theorem outside_step (h : Step c s a t) (hs : Outside s) : Outside t := by
  obtain ⟨hidle, hdone, hstop⟩ := hs
  cases h with
  | signal => exact ⟨hidle, hdone, hstop⟩
  | signalSeen hm => exact ⟨hidle, by simp, by simpa [hm] using hstop⟩
  | @stop k hm hk =>
    cases hk
    exact ⟨hidle, by simp, by simp⟩
  | join hm hth => exact ⟨hidle, fun _ => hth, by simpa [hm] using hstop⟩
  | inNext hth hb hk =>
    refine ⟨fun hn => (hn hth).elim, fun hm => ?_, by rw [stopRequested_eq hk hb]; exact hstop⟩
    simp [hth] at hdone
    exact (hdone hm).elim
  | nextTrue hth hb hk hret =>
    obtain ⟨hr, hreq⟩ := reader_returned hk hret
    refine ⟨fun _ => hr, fun hm => ?_, by rw [hreq]; exact hstop⟩
    simp [hth] at hdone
    exact (hdone hm).elim
  | nextFalse hth hb hk hret =>
    obtain ⟨hr, hreq⟩ := reader_returned hk hret
    exact ⟨fun _ => hr, fun _ => rfl, by rw [hreq]; exact hstop⟩
  | countTotal hth | countPartition hth | sample hth =>
    refine ⟨fun _ => hidle (by simp [hth]), fun hm => ?_, hstop⟩
    have hd := hdone hm
    simp [hth] at hd

theorem tally_reachable (h : Reachable (Step c) (initial out) s) : Tally s ∧ Outside s := by
  refine h.invariant (P := fun s => Tally s ∧ Outside s) ⟨tally_initial, ?_⟩
    fun hs hstep => ⟨tally_step hstep hs.1, outside_step hstep hs.2⟩
  exact ⟨fun hn => (hn rfl).elim, by rintro ⟨⟩, by simp [initial, KafkaEventConsumer.Loop.initial]⟩

/-- A message that has gone through the decoder has no number literal that overflows,
or its exception has ended the thread. -/
def Decoded (c : Codec) (k : KafkaEventConsumer.Loop.State) : Prop :=
  ∀ m ∈ k.messages, ¬ Overflowing c m.payload ∨ k.reader = .decode m ∨ ∃ e, k.reader = .threw e

theorem decoded_step {k k' : KafkaEventConsumer.Loop.State} {b : Loop.Action}
    (h : KafkaEventConsumer.Loop.Step c k b k') (hs : Decoded c k) : Decoded c k' := by
  cases h with
  | call hr | stopSeen hr | loop hr | countMalformed hr | countConsumed hr | deliver hr =>
    intro m hm
    rcases hs m hm with hn | hd | ⟨e, he⟩
    · exact Or.inl hn
    · simp [hr] at hd
    · simp [hr] at he
  | @pollNothing p hr hp =>
    intro m hm
    have hm : m ∈ k.messages := by
      simpa [KafkaEventConsumer.Loop.State.messages, hp] using hm
    rcases hs m hm with hn | hd | ⟨e, he⟩
    · exact Or.inl hn
    · simp [hr] at hd
    · simp [hr] at he
  | @pollMessage m' hr =>
    intro m hm
    have hm : m ∈ k.messages ∨ m = m' := by
      simpa [KafkaEventConsumer.Loop.State.messages, Poll.message?] using hm
    rcases hm with hm | rfl
    · rcases hs m hm with hn | hd | ⟨e, he⟩
      · exact Or.inl hn
      · simp [hr] at hd
      · simp [hr] at he
    · exact Or.inr (Or.inl rfl)
  | @decodeMalformed m' hr hd | @decodeEvent m' _ _ hr hd =>
    intro m hm
    rcases hs m hm with hn | hdec | ⟨e, he⟩
    · exact Or.inl hn
    · obtain rfl : m' = m := by simpa [hr] using hdec
      exact Or.inl (decodeRecord_total_iff.mp ⟨_, hd⟩)
    · simp [hr] at he
  | decodeThrows => exact fun m _ => Or.inr (Or.inr ⟨_, rfl⟩)
  | stop => exact hs

theorem decoded_reachable {k : KafkaEventConsumer.Loop.State}
    (h : Reachable (KafkaEventConsumer.Loop.Step c) (Loop.initial out) k) : Decoded c k :=
  h.invariant (by rintro m ⟨⟩) fun hs hstep => decoded_step hstep hs

/-- The messages of a partition that make an event. -/
theorem count_partition (c : Codec) (ms : List Message) (p : ℕ) :
    ((ms.filterMap (Loop.record c)).map (·.partition)).count p =
      ms.countP fun m => m.partition = p ∧ (decodeEvent c m.payload).isSome := by
  induction ms with
  | nil => rfl
  | cons m ms ih =>
    cases hd : decodeEvent c m.payload with
    | none =>
      have hr : Loop.record c m = none := by simp [Loop.record, KafkaEventConsumer.pair, hd]
      rw [List.filterMap_cons_none hr, ih, List.countP_cons]
      simp [hd]
    | some e =>
      have hr : Loop.record c m = some ⟨e, m.partition, m.offset⟩ := by
        simp [Loop.record, KafkaEventConsumer.pair, hd]
      rw [List.filterMap_cons_some hr, List.map_cons, List.count_cons, ih, List.countP_cons]
      simp [hd]

theorem length_records (c : Codec) (ms : List Message) :
    (ms.filterMap (Loop.record c)).length + ms.countP (fun m => (Loop.record c m).isNone) =
      ms.length := by
  induction ms with
  | nil => rfl
  | cons m ms ih =>
    cases hr : Loop.record c m with
    | none =>
      rw [List.filterMap_cons_none hr, List.countP_cons, List.length_cons]
      simp only [hr, Option.isNone_none, if_true]
      omega
    | some r =>
      rw [List.filterMap_cons_some hr, List.countP_cons, List.length_cons, List.length_cons]
      simp only [hr, Option.isNone_some, Bool.false_eq_true, if_false]
      omega

/-- Where `main()` returns, its report is exact: every message that any poll returned is in
`total` or malformed, and each partition has one line, in order, with the number of its
messages that make an event. -/
theorem report_is_exact (c : Codec) (out : ConsumedRecord) {s : State}
    (h : Reachable (Step c) (initial out) s) (hm : s.main = .returned) :
    s.total = s.consumer.messagesConsumed ∧
    s.total + s.consumer.messagesMalformed = s.consumer.messages.length ∧
    Ordered s.perPartitionCounts ∧
    (∀ p n, (p, n) ∈ s.perPartitionCounts ↔ n = (s.consumer.messages.countP fun m =>
      m.partition = p ∧ (decodeEvent c m.payload).isSome) ∧ 0 < n) ∧
    (s.perPartitionCounts.map (·.2)).sum = s.total ∧
    s.sampled.length = (s.total + 19) / 20 := by
  obtain ⟨⟨htot, ⟨xs, hxs, hpart⟩, ⟨ys, hys, hsamp⟩⟩, hout⟩ := tally_reachable h
  have hth := hout.done hm
  have hidle := hout.idle (by simp [hth])
  rw [hth] at htot hxs hys
  simp only [ThreadPC.uncounted, ThreadPC.untallied, ThreadPC.unsampled, List.append_nil,
    List.length_nil, Nat.add_zero] at htot hxs hys
  have hno : ∀ m ∈ s.consumer.messages, ¬ Overflowing c m.payload := by
    intro m hmem
    rcases decoded_reachable (consumer_reachable h) m hmem with hn | hd | ⟨e, he⟩
    · exact hn
    · simp [hidle] at hd
    · simp [hidle] at he
  have hacc := KafkaEventConsumer.Loop.accounted_reachable (consumer_reachable h) hno
  obtain ⟨hrec, hmal, hcon⟩ := hacc.settled (by rw [hidle]; rfl)
  have hkeys : xs.map (·.partition) =
      (s.consumer.messages.filterMap (Loop.record c)).map (·.partition) := by
    rw [← hrec, ← hxs, List.map_map]
    rfl
  refine ⟨?_, ?_, ?_, ?_, ?_, ?_⟩
  · rw [hcon, htot]
  · rw [hmal, ← htot, ← List.length_map, hrec]
    exact length_records c s.consumer.messages
  · rw [hpart]
    exact ordered_histogram _
  · intro p n
    rw [hpart, mem_histogram, hkeys, count_partition]
  · rw [hpart, sum_histogram, List.length_map, ← hxs, htot]
  · rw [hsamp, length_everyNth (by omega), ← hys, htot]

/-- The thread is about to call `next()`, and nobody has asked it to stop. -/
structure Ready (s : State) : Prop where
  main : s.main = .polling
  signalled : s.signalled = false
  thread : s.thread = .inNext
  reader : s.consumer.reader = .idle
  request : s.consumer.stopRequested = false

/-- A trade from partition `p` is polled, returned, counted and reported. -/
theorem trade_run (hs : Ready s) (p : ℕ) : ∃ t, Reachable (Step compact) s t ∧ Ready t ∧
    t.total = s.total + 1 ∧ t.perPartitionCounts = bump p s.perPartitionCounts := by
  obtain ⟨hmain, hsig, hth, hreader, hreq⟩ := hs
  have hd := decodeRecord_text compact_lawful sampleEvent_encodable
  have h₁ := (Reachable.refl s).snoc
    (show Step compact _ _ _ from .inNext hth (by decide) (.call hreader) rfl)
  have h₂ := h₁.snoc (.inNext hth (by decide) (.loop rfl hreq) rfl)
  have h₃ := h₂.snoc (.inNext hth (by rintro ⟨⟩)
    (.pollMessage (m := ⟨p, 17, compact.text (marketEventToJson sampleEvent)⟩) rfl) rfl)
  have h₄ := h₃.snoc (.inNext hth (by decide) (.decodeEvent 0 rfl hd) rfl)
  have h₅ := h₄.snoc (.inNext hth (by decide) (.countConsumed rfl) rfl)
  have h₆ := h₅.snoc (.nextTrue hth (by decide) (.deliver rfl) rfl)
  have h₇ := h₆.snoc (.countTotal rfl)
  have h₈ := h₇.snoc (.countPartition rfl)
  exact ⟨_, h₈.snoc (.sample rfl), ⟨hmain, hsig, rfl, rfl, hreq⟩, rfl, rfl⟩

theorem trades_run (ps : List ℕ) : ∃ s, Reachable (Step compact) (initial ⟨{}, 0, 0⟩) s ∧
    Ready s ∧ s.total = ps.length ∧ s.perPartitionCounts = histogram ps := by
  refine Reachable.through
    (P := fun ps s => Ready s ∧ s.total = ps.length ∧ s.perPartitionCounts = histogram ps) ?_
    ⟨⟨rfl, rfl, rfl, rfl, rfl⟩, rfl, rfl⟩
  rintro before p after s - ⟨hs, htot, hpart⟩
  obtain ⟨t, ht, hready, htot', hpart'⟩ := trade_run hs p
  refine ⟨t, ht, hready, ?_, ?_⟩
  · rw [htot', htot, List.length_append, List.length_singleton]
  · rw [hpart', hpart, histogram_concat]

/-- Twenty trades from partition 3 and one from partition 1, then the signal. -/
theorem report_is_exact_two_partitions :
    ∃ s : State, s.main = .returned ∧ s.total = 21 ∧ s.perPartitionCounts = [(1, 1), (3, 20)] ∧
      (s.perPartitionCounts.map (·.2)).sum = s.total ∧ s.sampled.length = 2 := by
  obtain ⟨s, h, ⟨hmain, hsig, hth, hreader, -⟩, htot, hpart⟩ :=
    trades_run (List.replicate 20 3 ++ [1])
  have h₁ := h.snoc (.signal hsig)
  have h₂ := h₁.snoc (.signalSeen hmain rfl)
  have h₃ := h₂.snoc (.stop rfl .stop)
  have h₄ := h₃.snoc (.inNext hth (by decide) (.call hreader) rfl)
  have h₅ := h₄.snoc (.nextFalse hth (by decide) (.stopSeen rfl rfl) rfl)
  have h₆ := h₅.snoc (.join rfl rfl)
  obtain ⟨-, -, -, -, hsum, hsamp⟩ := report_is_exact compact ⟨{}, 0, 0⟩ h₆ rfl
  refine ⟨_, ?_, ?_, ?_, hsum, ?_⟩
  · rfl
  · exact htot
  · exact hpart.trans (by decide)
  · simp [hsamp, htot]

/-- Actions left to the thread once `stop()` has been called. -/
def threadRank (reader : Loop.Reader) : ThreadPC → ℕ
  | .inNext =>
    match reader with
    | .stopTest => 2
    | .idle | .countMalformed => 3
    | .deliver _ => 7
    | .countConsumed _ => 8
    | .decode _ => 9
    | .poll => 10
    | .threw _ => 0
  | .tallied _ => 4
  | .counted _ => 5
  | .returned _ => 6
  | .done => 0

def exitRank (s : State) : ℕ :=
  threadRank s.consumer.reader s.thread + (s.main == .joining).toNat + (!s.signalled).toNat

theorem exitRank_step (h : Step c s a t) (hs : Outside s) (hstop : s.consumer.stopRequested = true) :
    exitRank t < exitRank s := by
  have hmain := hs.stopped.mp hstop
  unfold exitRank
  cases h with
  | signal hn => simp [hn]
  | signalSeen hm | stop hm => simp [hm] at hmain
  | join hm hth => simp [hm]
  | @inNext b k hth hb hk hret =>
    have hlt : threadRank k.reader .inNext < threadRank s.consumer.reader .inNext := by
      cases hk with
      | loop _ hn => simp [hstop] at hn
      | stopSeen | deliver => simp at hret
      | stop => exact (hb rfl).elim
      | pollNothing hr | pollMessage hr | call hr | decodeMalformed hr | decodeEvent _ hr
        | decodeThrows hr | countMalformed hr | countConsumed hr => simp [hr, threadRank]
    simp only [hth]
    omega
  | @nextTrue b k r hth hb hk hret =>
    have hlt : threadRank k.reader (.returned r) < threadRank s.consumer.reader .inNext := by
      cases hk with
      | deliver hr => simp [hr, threadRank]
      | _ => simp at hret
    simp only [hth]
    omega
  | @nextFalse b k hth hb hk hret =>
    have hlt : threadRank k.reader .done < threadRank s.consumer.reader .inNext := by
      cases hk with
      | stopSeen hr => simp [hr, threadRank]
      | _ => simp at hret
    simp only [hth]
    omega
  | countTotal hth | countPartition hth =>
    simp only [hth, threadRank]
    omega
  | sample hth =>
    have hr := hs.idle (by simp [hth])
    simp only [hth, hr, threadRank]
    omega

theorem exit_moves (hs : Outside s) (hstop : s.consumer.stopRequested = true) :
    (s.main = .returned ∨ ∃ e, s.consumer.reader = .threw e) ∨ ∃ a t, Step c s a t := by
  rcases hs.stopped.mp hstop with hm | hm
  · cases hth : s.thread with
    | done => exact Or.inr ⟨_, _, .join hm hth⟩
    | returned r => exact Or.inr ⟨_, _, .countTotal hth⟩
    | counted r => exact Or.inr ⟨_, _, .countPartition hth⟩
    | tallied r => exact Or.inr ⟨_, _, .sample hth⟩
    | inNext =>
      cases hr : s.consumer.reader with
      | idle => exact Or.inr ⟨_, _, .inNext hth (by decide) (.call hr) rfl⟩
      | stopTest => exact Or.inr ⟨_, _, .nextFalse hth (by decide) (.stopSeen hr hstop) rfl⟩
      | poll =>
        exact Or.inr ⟨_, _, .inNext hth (by rintro ⟨⟩) (.pollNothing (p := .timeout) hr rfl) rfl⟩
      | decode m =>
        cases hd : decodeRecord c m.payload with
        | error e => exact Or.inr ⟨_, _, .inNext hth (by decide) (.decodeThrows hr hd) rfl⟩
        | ok o =>
          cases o with
          | none => exact Or.inr ⟨_, _, .inNext hth (by decide) (.decodeMalformed hr hd) rfl⟩
          | some e => exact Or.inr ⟨_, _, .inNext hth (by decide) (.decodeEvent 0 hr hd) rfl⟩
      | countMalformed => exact Or.inr ⟨_, _, .inNext hth (by decide) (.countMalformed hr) rfl⟩
      | countConsumed r => exact Or.inr ⟨_, _, .inNext hth (by decide) (.countConsumed hr) rfl⟩
      | deliver r => exact Or.inr ⟨_, _, .nextTrue hth (by decide) (.deliver hr) rfl⟩
      | threw e => exact Or.inl (Or.inr ⟨e, rfl⟩)
  · exact Or.inl (Or.inl hm)

theorem stopRequested_step (h : Step c s a t) (hstop : s.consumer.stopRequested = true) :
    t.consumer.stopRequested = true := by
  cases h with
  | stop _ hk =>
    cases hk
    rfl
  | inNext _ hb hk | nextTrue _ hb hk | nextFalse _ hb hk =>
    rw [stopRequested_eq hk hb]
    exact hstop
  | _ => exact hstop

/-- After `stop()` the service is down within twelve actions, wherever its threads are and
however many messages are still to be polled, unless a number that overflows in the
message at hand ends it first. -/
theorem consumer_exits (c : Codec) (out : ConsumedRecord) {s : State}
    (h : Reachable (Step c) (initial out) s) (hstop : s.consumer.stopRequested = true) :
    Within (Step c) (fun t => t.main = .returned ∨ ∃ e, t.consumer.reader = .threw e) 12 s := by
  have hle : exitRank s ≤ 12 := by
    have hth : threadRank s.consumer.reader s.thread ≤ 10 := by
      cases s.thread with
      | inNext => cases s.consumer.reader <;> simp [threadRank]
      | _ => simp [threadRank]
    have hj := Bool.toNat_le (s.main == .joining)
    have hsig := Bool.toNat_le (!s.signalled)
    unfold exitRank
    omega
  refine within_of_rank (I := fun t => Outside t ∧ t.consumer.stopRequested = true) exitRank
    ?_ ?_ ?_ ⟨(tally_reachable h).2, hstop⟩ hle
  · rintro t a u ⟨ht, hreq⟩ hstep
    exact ⟨outside_step hstep ht, stopRequested_step hstep hreq⟩
  · rintro t a u ⟨ht, hreq⟩ hstep
    exact exitRank_step hstep ht hreq
  · rintro t ⟨ht, hreq⟩
    exact exit_moves ht hreq

/-- A signal before the first poll. -/
theorem consumer_exits_unread :
    ∃ s : State, s.main = .joining ∧ Within (Step compact)
      (fun t => t.main = .returned ∨ ∃ e, t.consumer.reader = .threw e) 12 s := by
  have h₁ : Reachable (Step compact) (initial ⟨{}, 0, 0⟩) _ := (Reachable.refl _).snoc (.signal rfl)
  have h₂ := h₁.snoc (.signalSeen rfl rfl)
  have h₃ := h₂.snoc (.stop rfl .stop)
  exact ⟨_, rfl, consumer_exits compact ⟨{}, 0, 0⟩ h₃ rfl⟩

end TickForge.ConsumerService
