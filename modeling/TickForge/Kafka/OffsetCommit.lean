import Mathlib.Data.List.Basic
import TickForge.Lib.JsonText
import TickForge.Lib.Transition
import TickForge.MarketEvent.Wire

/-! One partition, its committed offset, and a consumer process that may crash anywhere. -/
namespace TickForge.OffsetCommit

open ByteString Nlohmann Transition

/-- Where the consume thread is with the message it has polled. -/
inductive PC where
  | polling
  | decoding (offset : ℕ)
  | returned (offset : ℕ)
  | down
  deriving DecidableEq, Repr

structure State where
  pc : PC
  /-- The offset the next poll reads. -/
  position : ℕ
  /-- The offset that a commit would write. -/
  stored : ℕ
  committed : ℕ
  /-- Offsets that `next()` has returned and that the caller has processed, in any incarnation. -/
  returned : List ℕ
  processed : List ℕ
  deriving DecidableEq

inductive Action where
  | poll
  | decode
  | process
  | commit
  | crash
  | restart
  | close
  deriving DecidableEq, Repr

/-- A consumer group without a committed offset starts at the earliest one. -/
def initial : State where
  pc := .polling
  position := 0
  stored := 0
  committed := 0
  returned := []
  processed := []

inductive Step (c : Codec) (log : List Bytes) : State → Action → State → Prop where
  | pollNothing {s} : s.pc = .polling → Step c log s .poll s
  /-- With `enable.auto.offset.store` the poll itself stores the following offset. -/
  | poll {s} : s.pc = .polling → s.position < log.length →
      Step c log s .poll { s with
        pc := .decoding s.position, position := s.position + 1, stored := s.position + 1 }
  | malformed {s o text} : s.pc = .decoding o → log[o]? = some text →
      decodeRecord c text = .ok none → Step c log s .decode { s with pc := .polling }
  | returns {s o text e} : s.pc = .decoding o → log[o]? = some text →
      decodeRecord c text = .ok (some e) →
      Step c log s .decode { s with pc := .returned o, returned := s.returned ++ [o] }
  /-- The exception leaves the consume thread and ends the process. -/
  | throws {s o text x} : s.pc = .decoding o → log[o]? = some text →
      decodeRecord c text = .error x → Step c log s .decode { s with pc := .down }
  | process {s o} : s.pc = .returned o →
      Step c log s .process { s with pc := .polling, processed := s.processed ++ [o] }
  /-- The timer of `enable.auto.commit`, on a thread of its own. -/
  | commit {s} : s.pc ≠ .down → Step c log s .commit { s with committed := s.stored }
  | crash {s} : s.pc ≠ .down → Step c log s .crash { s with pc := .down }
  | restart {s} : s.pc = .down →
      Step c log s .restart { s with
        pc := .polling, position := s.committed, stored := s.committed }
  /-- `rd_kafka_consumer_close` commits a last time, after the consume thread has ended. -/
  | close {s} : s.pc = .polling →
      Step c log s .close { s with pc := .down, committed := s.stored }

/-- The message that has been polled and not been dealt with yet. -/
def PC.inFlight : PC → Option ℕ
  | .decoding o | .returned o => some o
  | _ => none

/-- The record at an offset decodes to an event. -/
def WellFormed (c : Codec) (log : List Bytes) (o : ℕ) : Prop :=
  ∃ text e, log[o]? = some text ∧ decodeRecord c text = .ok (some e)

/-- No well-formed message below the committed offset has been skipped. -/
def AtLeastOnce (c : Codec) (log : List Bytes) (s : State) : Prop :=
  ∀ o < s.committed, WellFormed c log o → o ∈ s.returned ∧ o ∈ s.processed

/-- The message in flight, if it is well-formed, has been processed before. -/
def Settled (c : Codec) (log : List Bytes) (s : State) : Prop :=
  ∀ o, s.pc.inFlight = some o → WellFormed c log o → o ∈ s.processed

/-- The steps of a run in which the timer commits only settled states. -/
def SettledStep (c : Codec) (log : List Bytes) (s : State) (a : Action) (t : State) : Prop :=
  Step c log s a t ∧ (a = .commit → Settled c log s)

variable {c : Codec} {log : List Bytes} {s t : State} {a : Action}

/-- What ties the offsets of a living process together. -/
structure Offsets (s : State) : Prop where
  stored : s.pc ≠ .down → s.stored = s.position
  inFlight : ∀ o, s.pc.inFlight = some o → s.position = o + 1
  returned : ∀ o, s.pc = .returned o → o ∈ s.returned
  processed : ∀ o ∈ s.processed, o ∈ s.returned

theorem offsets_step (h : Step c log s a t) (hs : Offsets s) : Offsets t := by
  obtain ⟨hst, hin, hret, hproc⟩ := hs
  cases h with
  | pollNothing => exact ⟨hst, hin, hret, hproc⟩
  | poll hi hlt => exact ⟨by simp, by simp [PC.inFlight], by simp, hproc⟩
  | malformed hi ht hd =>
    exact ⟨fun _ => hst (by simp [hi]), by simp [PC.inFlight], by simp, hproc⟩
  | @returns o text e hi ht hd =>
    refine ⟨fun _ => hst (by simp [hi]), ?_, by simp, ?_⟩
    · intro o' ho
      exact hin o' (by simpa [hi, PC.inFlight] using ho)
    · exact fun o' ho => List.mem_append_left _ (hproc o' ho)
  | throws | crash => exact ⟨by simp, by simp [PC.inFlight], by simp, hproc⟩
  | @process o hi =>
    refine ⟨fun _ => hst (by simp [hi]), by simp [PC.inFlight], by simp, ?_⟩
    intro o' ho
    rcases List.mem_append.mp ho with ho | ho
    · exact hproc o' ho
    · obtain rfl := List.mem_singleton.mp ho
      exact hret _ hi
  | commit hi => exact ⟨hst, hin, hret, hproc⟩
  | restart hi => exact ⟨by simp, by simp [PC.inFlight], by simp, hproc⟩
  | close hi => exact ⟨by simp, by simp [PC.inFlight], by simp, hproc⟩

theorem offsets_initial : Offsets initial :=
  ⟨fun _ => rfl, by simp [initial, PC.inFlight], by simp [initial], by simp [initial]⟩

theorem offsets_reachable (h : Reachable (Step c log) initial s) : Offsets s :=
  h.invariant offsets_initial fun hs hstep => offsets_step hstep hs

/-- Below the position only the message in flight can be unprocessed. -/
def Caught (c : Codec) (log : List Bytes) (s : State) : Prop :=
  s.pc ≠ .down → ∀ o < s.position, WellFormed c log o → o ∈ s.processed ∨ s.pc.inFlight = some o

/-- Every well-formed message below the committed offset has been processed. -/
def Covered (c : Codec) (log : List Bytes) (s : State) : Prop :=
  ∀ o < s.committed, WellFormed c log o → o ∈ s.processed

theorem caught_step (h : Step c log s a t) (hs : Caught c log s) (hc : Covered c log s) :
    Caught c log t := by
  intro hdown o hlt hwf
  cases h with
  | pollNothing | commit => exact hs hdown o hlt hwf
  | poll hi _ =>
    rcases Nat.lt_succ_iff_lt_or_eq.mp hlt with hlt | rfl
    · have := hs (by simp [hi]) o hlt hwf
      exact Or.inl (by simpa [hi, PC.inFlight] using this)
    · exact Or.inr rfl
  | malformed hi ht hd =>
    rcases hs (by simp [hi]) o hlt hwf with hp | hf
    · exact Or.inl hp
    · obtain rfl : _ = o := by simpa [hi, PC.inFlight] using hf
      obtain ⟨text, e, ht', hd'⟩ := hwf
      simp_all
  | returns hi _ _ =>
    have := hs (by simp [hi]) o hlt hwf
    simpa [hi, PC.inFlight] using this
  | process hi =>
    have := hs (by simp [hi]) o hlt hwf
    simpa [hi, PC.inFlight, eq_comm] using this
  | restart hi => exact Or.inl (hc o hlt hwf)
  | throws | crash | close => simp at hdown

theorem covered_step (h : SettledStep c log s a t) (ho : Offsets s) (hs : Caught c log s)
    (hc : Covered c log s) : Covered c log t := by
  obtain ⟨h, hsettled⟩ := h
  intro o hlt hwf
  cases h with
  | process => exact List.mem_append_left _ (hc o hlt hwf)
  | commit hi =>
    rw [ho.stored hi] at hlt
    rcases hs hi o hlt hwf with hp | hf
    · exact hp
    · exact hsettled rfl o hf hwf
  | close hi =>
    rw [ho.stored (by simp [hi])] at hlt
    simpa [hi, PC.inFlight] using hs (by simp [hi]) o hlt hwf
  | _ => exact hc o hlt hwf

/-- If the timer commits only settled states, no well-formed message below the committed
offset is ever skipped. A commit of any other state skips the message in flight. -/
theorem at_least_once_of_settled (c : Codec) (log : List Bytes) :
    (∀ s, Reachable (SettledStep c log) initial s → AtLeastOnce c log s) ∧
    (∀ s t, Reachable (Step c log) initial s → Step c log s .commit t →
      (AtLeastOnce c log t → Settled c log s)) := by
  constructor
  · intro s h
    have hinv := h.invariant
      (P := fun s => Offsets s ∧ Caught c log s ∧ Covered c log s)
      ⟨offsets_initial, by simp [Caught, initial], by simp [Covered, initial]⟩
      fun {s a t} hs hstep => ⟨offsets_step hstep.1 hs.1, caught_step hstep.1 hs.2.1 hs.2.2,
        covered_step hstep hs.1 hs.2.1 hs.2.2⟩
    intro o hlt hwf
    have hp := hinv.2.2 o hlt hwf
    exact ⟨hinv.1.processed o hp, hp⟩
  · intro s t h hstep halo o hf hwf
    have ho := offsets_reachable h
    cases hstep with
    | commit hi =>
      refine (halo o ?_ hwf).2
      have := ho.stored hi
      have := ho.inFlight o hf
      dsimp only
      omega

/-- A log of one well-formed record. -/
def sampleLog : List Bytes := [compact.text (marketEventToJson sampleEvent)]

theorem decodeRecord_sampleLog :
    decodeRecord compact (compact.text (marketEventToJson sampleEvent)) =
      .ok (some sampleEvent.timeless) := by
  simp [decodeRecord, compact_lawful.parse_text sampleEvent_encodable.printable,
    marketEventFromJson_roundtrip sampleEvent_encodable, bind, Except.bind, pure, Except.pure]

theorem at_least_once_of_settled_one_record :
    ∃ s, Reachable (SettledStep compact sampleLog) initial s ∧ s.committed = 1 ∧
      AtLeastOnce compact sampleLog s := by
  have h₁ : Reachable (SettledStep compact sampleLog) initial _ :=
    (Reachable.refl _).snoc ⟨.poll rfl (by decide), by simp⟩
  have h₂ := h₁.snoc ⟨.returns rfl rfl decodeRecord_sampleLog, by simp⟩
  have h₃ := h₂.snoc ⟨.process rfl, by simp⟩
  have h₄ := h₃.snoc ⟨.commit (by simp), by simp [Settled, PC.inFlight]⟩
  exact ⟨_, h₄, rfl, (at_least_once_of_settled compact sampleLog).1 _ h₄⟩

/-- The timer commits right after a poll, the process crashes, and the restarted one goes on
behind a record that nobody has processed. -/
theorem commit_before_processing_skips :
    ∃ s, Reachable (Step compact sampleLog) initial s ∧ s.pc = .polling ∧ s.position = 1 ∧
      s.returned = [] ∧ s.processed = [] ∧ ¬ AtLeastOnce compact sampleLog s := by
  have h₁ : Reachable (Step compact sampleLog) initial _ :=
    (Reachable.refl _).snoc (.poll rfl (by decide))
  have h₂ := h₁.snoc (.commit (by simp))
  have h₃ := h₂.snoc (.crash (by simp))
  have h₄ := h₃.snoc (.restart rfl)
  refine ⟨_, h₄, rfl, rfl, rfl, rfl, ?_⟩
  intro h
  have := (h 0 (by decide) ⟨_, _, rfl, decodeRecord_sampleLog⟩).2
  simp [initial] at this

end TickForge.OffsetCommit
