import Mathlib.Data.Bool.Count
import TickForge.IngestionPipeline.Control

/-! Every event is in exactly one place, and every counter is at most one action behind. -/
namespace TickForge.IngestionPipeline

open Transition BoundedQueue

variable {α : Type*} {cfg : Config α} {s t : State α} {a : Thread} {script : List Call}

/-- The event `next()` has delivered and `events_received_` does not count yet. -/
def IngestPC.uncounted : IngestPC α → List α
  | .received e => [e]
  | _ => []

/-- The event `record()` has not been called for yet. -/
def IngestPC.unrecorded : IngestPC α → List α
  | .received e | .counted e => [e]
  | _ => []

/-- The `publish()` call that has not returned yet. -/
def PublishPC.pending : PublishPC α → ℕ
  | .inPublish _ => 1
  | _ => 0

/-- The result `b` that its counter does not include yet. -/
def PublishPC.lag (b : Bool) : PublishPC α → ℕ
  | .returned r => if r = b then 1 else 0
  | _ => 0

/-- Where the yielded events are. -/
def Placed (s : State α) : Prop :=
  s.yielded = s.handed ++ s.publish.held ++ s.queue.queue ++ s.ingest.held

/-- The publish thread leaves its loop only on a closed, empty queue. -/
def Drained (s : State α) : Prop :=
  s.publish = .flushing ∨ s.publish = .done → s.queue.shutDown = true ∧ s.queue.queue = []

structure Counted (cfg : Config α) (s : State α) : Prop where
  received : s.eventsReceived + s.ingest.uncounted.length = s.yielded.length
  returned : s.results.length + s.publish.pending = s.handed.length
  pattern : s.results = (List.range s.results.length).map cfg.publishReturns
  published : s.eventsPublished + s.publish.lag true = s.results.count true
  failures : s.publishFailures + s.publish.lag false = s.results.count false

def Recorded (cfg : Config α) (s : State α) : Prop :=
  if cfg.recorder then s.recorded ++ s.ingest.unrecorded = s.yielded else s.recorded = []

/-- No `push()` of the ingest thread is refused: the queue it sees is open. -/
theorem push_not_refused (hc : Control s) {e : α} {q : BoundedQueue α} (hi : s.ingest = .pushing e) :
    s.queue.push e ≠ (false, q) := by
  intro hp
  have := hc.ingest_done (push_false hp).1
  simp [hi] at this

theorem placed_step (h : Step cfg s a t) (hc : Control s) (hs : Placed s) : Placed t := by
  unfold Placed at *
  cases h with
  | pushTrue hi _ hp => simp_all [(push_true hp).2.2.1, IngestPC.held]
  | pushFalse hi _ hp => exact (push_not_refused hc hi hp).elim
  | popTrue hi _ hp => simp_all [(pop_some hp).1, PublishPC.held]
  | popFalse hi _ hp => simp_all [(pop_none hp).1, (pop_none hp).2, PublishPC.held]
  | launchIngest ho _ => simpa [hc.ingest_notStarted ho, IngestPC.held] using hs
  | launchPublish ho _ => simpa [hc.publish_notStarted ho, PublishPC.held] using hs
  | nextTrue hi | nextFalse hi | callNext hi | countReceived hi | record hi | finishIngest hi =>
    simp_all [IngestPC.held]
  | publish hi | publishReturn hi | countPublished hi | countFailure hi | flush hi =>
    simp_all [PublishPC.held]
  | _ => exact hs

theorem drained_step (h : Step cfg s a t) (hc : Control s) (hs : Drained s) : Drained t := by
  unfold Drained at *
  cases h with
  | pushTrue hi _ hp =>
    intro hd
    have := hc.ingest_done (hs hd).1
    simp [hi] at this
  | pushFalse hi _ hp => exact (push_not_refused hc hi hp).elim
  | popTrue hi _ hp => simp
  | popFalse hi hcan hp =>
    intro _
    obtain ⟨hq, rfl⟩ := pop_none hp
    exact ⟨shutDown_of_pop_none hcan hp, hq⟩
  | flush hi => exact fun _ => hs (Or.inl hi)
  | shutDownQueue => exact fun hd => ⟨rfl, (hs hd).2⟩
  | publish | publishReturn | countPublished | countFailure | launchPublish => simp
  | _ => exact hs

theorem counted_step (h : Step cfg s a t) (hc : Control s) (hs : Counted cfg s) :
    Counted cfg t := by
  obtain ⟨hr, hret, hpat, hpub, hfail⟩ := hs
  cases h with
  | launchIngest ho _ =>
    exact ⟨by simpa [hc.ingest_notStarted ho, IngestPC.uncounted] using hr, hret, hpat, hpub, hfail⟩
  | launchPublish ho _ =>
    rw [hc.publish_notStarted ho] at hret hpub hfail
    exact ⟨hr, hret, hpat, hpub, hfail⟩
  | callNext hi | nextTrue hi | nextFalse hi | countReceived hi | record hi | pushTrue hi _ _
  | pushFalse hi _ _ | finishIngest hi =>
    rw [hi] at hr
    refine ⟨?_, hret, hpat, hpub, hfail⟩
    simp only [IngestPC.uncounted, List.length_append, List.length_singleton, List.length_nil] at hr ⊢
    omega
  | popTrue hi _ _ | popFalse hi _ _ =>
    rw [hi] at hret hpub hfail
    exact ⟨hr, hret, hpat, hpub, hfail⟩
  | publish hi =>
    rw [hi] at hret hpub hfail
    refine ⟨hr, ?_, hpat, hpub, hfail⟩
    simp only [PublishPC.pending, List.length_append, List.length_singleton] at hret ⊢
    omega
  | publishReturn hi =>
    rw [hi] at hret hpub hfail
    refine ⟨hr, ?_, ?_, ?_, ?_⟩
    · simpa [PublishPC.pending] using hret
    · simp only [List.length_append, List.length_singleton, List.range_succ, List.map_append,
        List.map_singleton]
      rw [← hpat]
    · cases hb : cfg.publishReturns s.results.length <;>
        simpa [PublishPC.lag, List.count_append] using hpub
    · cases hb : cfg.publishReturns s.results.length <;>
        simpa [PublishPC.lag, List.count_append] using hfail
  | countPublished hi | countFailure hi =>
    rw [hi] at hret hpub hfail
    exact ⟨hr, hret, hpat, by simpa [PublishPC.lag] using hpub, by simpa [PublishPC.lag] using hfail⟩
  | flush hi =>
    rw [hi] at hret hpub hfail
    exact ⟨hr, hret, hpat, hpub, hfail⟩
  | _ => exact ⟨hr, hret, hpat, hpub, hfail⟩

theorem recorded_step (h : Step cfg s a t) (hc : Control s) (hs : Recorded cfg s) :
    Recorded cfg t := by
  unfold Recorded at *
  cases hrec : cfg.recorder with
  | false =>
    simp only [hrec, Bool.false_eq_true, if_false] at hs ⊢
    cases h <;> simp_all
  | true =>
    simp only [hrec, if_true] at hs ⊢
    cases h with
    | launchIngest ho _ => simpa [hc.ingest_notStarted ho, IngestPC.unrecorded] using hs
    | callNext hi | nextTrue hi | nextFalse hi | countReceived hi | record hi | pushTrue hi _ _
    | pushFalse hi _ _ | finishIngest hi =>
      simp_all [IngestPC.unrecorded]
    | _ => exact hs

/-- Everything that holds in every state of a pipeline that is started at most once. -/
structure Flow (cfg : Config α) (s : State α) : Prop where
  control : Control s
  once : StartsOnce s
  placed : Placed s
  drained : Drained s
  counted : Counted cfg s
  recorded : Recorded cfg s

theorem flow_initial (ho : OneStart script) : Flow cfg (initial cfg script) where
  control := control_initial
  once := ⟨ho, by simp [initial]⟩
  placed := rfl
  drained := by simp [Drained, initial]
  counted := ⟨rfl, rfl, rfl, rfl, rfl⟩
  recorded := by simp [Recorded, initial, IngestPC.unrecorded]

theorem flow_step (h : Step cfg s a t) (hs : Flow cfg s) : Flow cfg t where
  control := control_step h hs.control hs.once
  once := startsOnce_step h hs.once
  placed := placed_step h hs.control hs.placed
  drained := drained_step h hs.control hs.drained
  counted := counted_step h hs.control hs.counted
  recorded := recorded_step h hs.control hs.recorded

theorem flow_reachable (ho : OneStart script)
    (h : Reachable (Step cfg) (initial cfg script) s) : Flow cfg s :=
  h.invariant (flow_initial ho) fun ht hstep => flow_step hstep ht

/-- After `stop()` both workers are gone and the queue is empty, so every counter is exact. -/
theorem Flow.stopped (hs : Flow cfg s) (h : s.stopped = true) :
    s.ingest = .done ∧ s.publish = .done ∧ s.queue.queue = [] := by
  have hc := hs.control
  unfold Control at hc
  cases ho : s.owner <;> rw [ho] at hc <;> dsimp only at hc
  case idle =>
    rcases hc with ⟨-, hc⟩ | hc | hc
    · simp [hc.stopped] at h
    · simp [hc.stopped] at h
    · have hp := PublishPC.life_eq_done.mp hc.publish
      exact ⟨IngestPC.life_eq_done.mp hc.ingest, hp, (hs.drained (Or.inr hp)).2⟩
  case launchIngest => simp [hc.2.stopped] at h
  all_goals simp [hc.stopped] at h

theorem Flow.recorded_append (hs : Flow cfg s) (h : cfg.recorder = true) :
    s.recorded ++ s.ingest.unrecorded = s.yielded := by
  simpa [Recorded, h] using hs.recorded

/-- Then every yielded event has been handed over, counted and recorded. -/
theorem Flow.complete (hs : Flow cfg s) (h : s.stopped = true) :
    s.handed = s.yielded ∧ s.eventsReceived = s.yielded.length ∧
      s.eventsPublished + s.publishFailures = s.eventsReceived ∧
      (cfg.recorder = true → s.recorded = s.yielded) := by
  obtain ⟨hi, hp, hq⟩ := hs.stopped h
  obtain ⟨hr, hret, -, hpub, hfail⟩ := hs.counted
  have hpl := hs.placed
  rw [hi] at hr
  rw [hp] at hret hpub hfail
  simp only [Placed, hi, hp, hq, PublishPC.held, IngestPC.held, List.append_nil] at hpl
  have hsum : s.results.count true + s.results.count false = s.results.length :=
    List.count_true_add_count_false _
  simp only [IngestPC.uncounted, PublishPC.pending, PublishPC.lag, List.length_nil]
    at hr hret hpub hfail
  refine ⟨hpl.symm, by omega, ?_, ?_⟩
  · rw [hpl] at hr
    omega
  · intro hb
    simpa [hi, IngestPC.unrecorded] using hs.recorded_append hb

theorem uncounted_length (p : IngestPC α) : p.uncounted.length = 0 ∨ p.uncounted.length = 1 := by
  cases p <;> simp [IngestPC.uncounted]

theorem unrecorded_length (p : IngestPC α) : p.unrecorded.length ≤ 1 := by
  cases p <;> simp [IngestPC.unrecorded]

theorem pending_le (p : PublishPC α) : p.pending ≤ 1 := by
  cases p <;> simp [PublishPC.pending]

theorem lag_cases (p : PublishPC α) : (p.lag true = 0 ∧ p.lag false = 0) ∨
    (p.lag true = 1 ∧ p.lag false = 0) ∨ (p.lag true = 0 ∧ p.lag false = 1) := by
  cases p with
  | returned b => cases b <;> simp [PublishPC.lag]
  | _ => simp [PublishPC.lag]

/-- Nothing is lost, duplicated or reordered between `next()` and `publish()`. The
last two clauses are the consequences: no `push()` is refused, and once `stop()` has
joined both workers every yielded event has been handed over and counted. -/
theorem nothing_lost (cfg : Config α) (ho : OneStart script) {s : State α}
    (h : Reachable (Step cfg) (initial cfg script) s) :
    s.yielded = s.handed ++ s.publish.held ++ s.queue.queue ++ s.ingest.held ∧
    (s.eventsReceived = s.yielded.length ∨ s.eventsReceived + 1 = s.yielded.length) ∧
    (s.results.length = s.handed.length ∨ s.results.length + 1 = s.handed.length) ∧
    ((s.eventsPublished = s.results.count true ∧ s.publishFailures = s.results.count false) ∨
      (s.eventsPublished + 1 = s.results.count true ∧
        s.publishFailures = s.results.count false) ∨
      (s.eventsPublished = s.results.count true ∧
        s.publishFailures + 1 = s.results.count false)) ∧
    (cfg.recorder = true → s.recorded <+: s.yielded ∧
      s.yielded.length ≤ s.recorded.length + 1) ∧
    (∀ e q, s.ingest = .pushing e → s.queue.push e ≠ (false, q)) ∧
    (s.stopped = true → s.handed = s.yielded ∧ s.eventsReceived = s.yielded.length ∧
      s.eventsPublished + s.publishFailures = s.eventsReceived ∧
      (cfg.recorder = true → s.recorded = s.yielded)) := by
  have hf := flow_reachable ho h
  obtain ⟨hr, hret, -, hpub, hfail⟩ := hf.counted
  refine ⟨hf.placed, ?_, ?_, ?_, ?_, ?_, ?_⟩
  · have := uncounted_length s.ingest
    omega
  · have := pending_le s.publish
    omega
  · have := lag_cases s.publish
    omega
  · intro hb
    have hlen := unrecorded_length s.ingest
    rw [← hf.recorded_append hb]
    refine ⟨List.prefix_append _ _, ?_⟩
    rw [List.length_append]
    omega
  · exact fun e q hi => push_not_refused hf.control hi
  · exact hf.complete

/-- A recorded capture of two events with a publisher that fails on the second, from `start()`
to the end of `stop()`. The second event waits in the queue while the first is published. -/
theorem nothing_lost_two_events :
    ∃ s : State ℕ, Reachable (Step ⟨1, .ofList [7, 9], fun k => k = 0, true⟩)
        (initial ⟨1, .ofList [7, 9], fun k => k = 0, true⟩ [.start, .requestStop, .stop]) s ∧
      s.stopped = true ∧ s.yielded = [7, 9] ∧ s.eventsPublished = 1 ∧ s.publishFailures = 1 ∧
      s.handed = s.yielded ∧ s.recorded = s.yielded := by
  have h₁ : Reachable (Step ⟨1, .ofList [7, 9], fun k => k = 0, true⟩)
      (initial ⟨1, .ofList [7, 9], fun k => k = 0, true⟩ [.start, .requestStop, .stop]) _ :=
    (Reachable.refl _).snoc (.start rfl rfl)
  have h₂ := h₁.snoc (.launchIngest rfl rfl)
  have h₃ := h₂.snoc (.callNext rfl)
  have h₄ := h₃.snoc (.nextTrue (e := 7) rfl (Or.inl ⟨rfl, rfl⟩))
  have h₅ := h₄.snoc (.countReceived rfl)
  have h₆ := h₅.snoc (.launchPublish rfl rfl)
  have h₇ := h₆.snoc (.record rfl)
  have h₈ := h₇.snoc (.pushTrue rfl rfl rfl)
  have h₉ := h₈.snoc (.popTrue rfl rfl rfl)
  have h₁₀ := h₉.snoc (.callNext rfl)
  have h₁₁ := h₁₀.snoc (.nextTrue (e := 9) rfl (Or.inl ⟨rfl, rfl⟩))
  have h₁₂ := h₁₁.snoc (.countReceived rfl)
  have h₁₃ := h₁₂.snoc (.record rfl)
  have h₁₄ := h₁₃.snoc (.pushTrue rfl rfl rfl)
  have h₁₅ := h₁₄.snoc (.publish rfl)
  have h₁₆ := h₁₅.snoc (.publishReturn rfl)
  have h₁₇ := h₁₆.snoc (.countPublished rfl)
  have h₁₈ := h₁₇.snoc (.requestStop rfl rfl)
  have h₁₉ := h₁₈.snoc (.popTrue rfl rfl rfl)
  have h₂₀ := h₁₉.snoc (.publish rfl)
  have h₂₁ := h₂₀.snoc (.callNext rfl)
  have h₂₂ := h₂₁.snoc (.nextFalse rfl (Or.inr ⟨Or.inl rfl, rfl⟩))
  have h₂₃ := h₂₂.snoc (.stop rfl rfl rfl)
  have h₂₄ := h₂₃.snoc (.finishIngest rfl)
  have h₂₅ := h₂₄.snoc (.joinIngest rfl (fun _ => rfl))
  have h₂₆ := h₂₅.snoc (.shutDownQueue rfl)
  have h₂₇ := h₂₆.snoc (.publishReturn rfl)
  have h₂₈ := h₂₇.snoc (.countFailure rfl)
  have h₂₉ := h₂₈.snoc (.popFalse rfl rfl rfl)
  have h₃₀ := h₂₉.snoc (.flush rfl)
  have h₃₁ := h₃₀.snoc (.joinPublish rfl (fun _ => rfl))
  obtain ⟨hhanded, -, -, hrec⟩ := (nothing_lost _ (by decide) h₃₁).2.2.2.2.2.2 rfl
  exact ⟨_, h₃₁, rfl, rfl, rfl, rfl, hhanded, hrec rfl⟩

end TickForge.IngestionPipeline
