import TickForge.BoundedQueue.HighWater
import TickForge.IngestionPipeline.Restart

/-! How many events the pipeline holds at once. -/
namespace TickForge.IngestionPipeline

open Transition BoundedQueue

variable {α : Type*} {cfg : Config α} {s t : State α} {a : Thread} {script : List Call}

/-- Every step of the pipeline is at most one critical section of its queue. -/
theorem queue_section (h : Step cfg s a t) : ∃ b, Section s.queue b t.queue := by
  cases h with
  | pushTrue _ hc hp | pushFalse _ hc hp => exact ⟨_, .push hc hp⟩
  | popTrue _ hc hp | popFalse _ hc hp => exact ⟨_, .pop hc hp⟩
  | shutDownQueue => exact ⟨_, .shutdown⟩
  | _ => exact ⟨.call, .quiet trivial⟩

theorem queue_bounded (h : Reachable (Step cfg) (initial cfg script) s) :
    Bounded cfg.capacity s.queue := by
  refine h.invariant (P := fun s => Bounded cfg.capacity s.queue) bounded_new ?_
  intro t a u ht hs
  obtain ⟨b, hb⟩ := queue_section hs
  exact bounded_section hb ht

/-- No event is counted twice on its way out. -/
theorem counted_le (hs : Ledger s) : s.eventsPublished + s.publishFailures ≤ s.eventsReceived := by
  rcases hs.account with hb | hr
  · unfold Balanced at hb
    omega
  · have := hr.received
    omega

/-- A full queue, one event with each worker. -/
theorem received_le (hs : Ledger s) (hq : Bounded cfg.capacity s.queue) :
    s.eventsReceived ≤ s.eventsPublished + s.publishFailures + cfg.capacity + 2 := by
  rcases hs.account with hb | hr
  · have hi := s.ingest.inFlight_le
    have hp := s.publish.inFlight_le
    have hsize := hq.size
    have hmark := hq.mark
    rw [hq.capacity] at hmark
    unfold Balanced at hb
    omega
  · have := hr.received
    omega

/-- Memory is bounded by the capacity and the mark is exact, whatever the threads do:
on the queue alone with any set of threads, and in the pipeline under any calls. -/
theorem backpressure_bounds_memory (ι α : Type*) [DecidableEq ι] (capacity : ℕ) :
    (∀ (vs : List (BoundedQueue.State ι α)) (s : BoundedQueue.State ι α),
      Visits BoundedQueue.Step (BoundedQueue.initial ι capacity) vs s →
        s.q.capacity = capacity ∧ s.q.size ≤ s.q.highWaterMark ∧
        s.q.highWaterMark ≤ s.q.capacity ∧
        IsGreatest ((fun v => v.q.size) '' {v | v ∈ vs}) s.q.highWaterMark ∧
        ∀ (i : ι) (b : Action α) (t : BoundedQueue.State ι α), BoundedQueue.Step s (i, b) t →
          s.q.highWaterMark ≤ t.q.highWaterMark ∧
          (s.q.highWaterMark ≠ t.q.highWaterMark → ∃ x, b = .push x true)) ∧
    (∀ (cfg : Config α) (script : List Call) (s : State α),
      Reachable (Step cfg) (initial cfg script) s →
        (s.eventsReceived : ℤ) - s.eventsPublished - s.publishFailures ≤ cfg.capacity + 2) := by
  refine ⟨?_, ?_⟩
  · intro vs s h
    have hb := bounded_reachable h.reachable
    exact ⟨hb.capacity, hb.size, hb.mark, highWaterMark_isGreatest h,
      fun i b t hs => highWaterMark_step hs⟩
  · intro cfg script s h
    have := received_le (ledger_reachable h) (queue_bounded h)
    omega

/-- One slot: a push followed by its pop leaves the mark at one, and a pipeline can
hold three events. -/
theorem backpressure_bounds_memory_one_slot :
    (∃ (vs : List (BoundedQueue.State (Fin 1) ℕ)) (s : BoundedQueue.State (Fin 1) ℕ),
      Visits BoundedQueue.Step (BoundedQueue.initial (Fin 1) 1) vs s ∧ s.q.size = 0 ∧
        s.q.highWaterMark = 1 ∧
        IsGreatest ((fun v => v.q.size) '' {v | v ∈ vs}) s.q.highWaterMark) ∧
    (∃ s : State ℕ, Reachable (Step ⟨1, .ofList [7, 8, 9], fun _ => true, false⟩)
        (initial ⟨1, .ofList [7, 8, 9], fun _ => true, false⟩ [.start]) s ∧
      s.eventsReceived = 3 ∧ s.eventsPublished = 0 ∧
      (s.eventsReceived : ℤ) - s.eventsPublished - s.publishFailures ≤ 1 + 2) := by
  have v₁ : Visits BoundedQueue.Step
      (BoundedQueue.initial (Fin 1) 1 : BoundedQueue.State (Fin 1) ℕ) _ _ :=
    Visits.refl.snoc (BoundedQueue.Step.callPush (i := 0) 7 rfl)
  have v₂ := v₁.snoc (BoundedQueue.Step.pushTrue (i := 0) (Or.inl rfl) rfl rfl)
  have v₃ := v₂.snoc (BoundedQueue.Step.notifyNotEmptyLost (i := 0) rfl (by decide))
  have v₄ := v₃.snoc (BoundedQueue.Step.callPop (i := 0) rfl)
  have v₅ := v₄.snoc (BoundedQueue.Step.popTrue (i := 0) (Or.inl rfl) rfl rfl)
  have h₁ : Reachable (Step ⟨1, .ofList [7, 8, 9], fun _ => true, false⟩)
      (initial ⟨1, .ofList [7, 8, 9], fun _ => true, false⟩ [.start]) _ :=
    (Reachable.refl _).snoc (.start rfl rfl)
  have h₂ := h₁.snoc (.launchIngest rfl rfl)
  have h₃ := h₂.snoc (.launchPublish rfl rfl)
  have h₄ := h₃.snoc (.callNext rfl)
  have h₅ := h₄.snoc (.nextTrue (e := 7) rfl (Or.inl ⟨rfl, rfl⟩))
  have h₆ := h₅.snoc (.countReceived rfl)
  have h₇ := h₆.snoc (.record rfl)
  have h₈ := h₇.snoc (.pushTrue rfl rfl rfl)
  have h₉ := h₈.snoc (.popTrue rfl rfl rfl)
  have h₁₀ := h₉.snoc (.callNext rfl)
  have h₁₁ := h₁₀.snoc (.nextTrue (e := 8) rfl (Or.inl ⟨rfl, rfl⟩))
  have h₁₂ := h₁₁.snoc (.countReceived rfl)
  have h₁₃ := h₁₂.snoc (.record rfl)
  have h₁₄ := h₁₃.snoc (.pushTrue rfl rfl rfl)
  have h₁₅ := h₁₄.snoc (.callNext rfl)
  have h₁₆ := h₁₅.snoc (.nextTrue (e := 9) rfl (Or.inl ⟨rfl, rfl⟩))
  have h₁₇ := h₁₆.snoc (.countReceived rfl)
  have hbound := backpressure_bounds_memory (Fin 1) ℕ 1
  exact ⟨⟨_, _, v₅, rfl, rfl, (hbound.1 _ _ v₅).2.2.2.1⟩,
    ⟨_, h₁₇, rfl, rfl, hbound.2 _ _ _ h₁₇⟩⟩

end TickForge.IngestionPipeline
