import TickForge.IngestionPipeline.Backpressure

/-! The loads of one `stats()` call, taken while the pipeline goes on. -/
namespace TickForge.IngestionPipeline

open Transition BoundedQueue

variable {α : Type*} {cfg : Config α} {a : Thread} {script : List Call}

structure Stats where
  eventsReceived : ℕ
  eventsPublished : ℕ
  publishFailures : ℕ
  queueHighWaterMark : ℕ
  queueCapacity : ℕ
  deriving DecidableEq, Repr

/-- What `stats()` has loaded so far; each load is an action of its own. -/
inductive StatsPC where
  | notCalled
  | loadedReceived (received : ℕ)
  | loadedPublished (received published : ℕ)
  | loadedFailures (received published failures : ℕ)
  | loadedMark (received published failures mark : ℕ)
  | returned (stats : Stats)
  deriving DecidableEq, Repr

/-- A pipeline and a thread that calls `stats()` on it. -/
structure Observed (α : Type*) where
  pipeline : State α
  stats : StatsPC
  /-- How far `events_received_` went from its load to that of `publish_failures_`. -/
  arrivals : ℕ

inductive Observe (cfg : Config α) : Observed α → Option Thread → Observed α → Prop where
  | pipeline {s : Observed α} {a : Thread} {t : State α} :
      Step cfg s.pipeline a t → Observe cfg s (some a) { s with pipeline := t }
  | loadReceived {s} : s.stats = .notCalled →
      Observe cfg s none { s with stats := .loadedReceived s.pipeline.eventsReceived }
  | loadPublished {s r} : s.stats = .loadedReceived r →
      Observe cfg s none { s with stats := .loadedPublished r s.pipeline.eventsPublished }
  | loadFailures {s r p} : s.stats = .loadedPublished r p →
      Observe cfg s none { s with
        stats := .loadedFailures r p s.pipeline.publishFailures
        arrivals := s.pipeline.eventsReceived - r }
  | loadMark {s r p f} : s.stats = .loadedFailures r p f →
      Observe cfg s none { s with stats := .loadedMark r p f s.pipeline.queue.highWaterMark }
  | loadCapacity {s r p f h} : s.stats = .loadedMark r p f h →
      Observe cfg s none { s with stats := .returned ⟨r, p, f, h, s.pipeline.queue.capacity⟩ }

/-- Nobody has called `stats()` yet. -/
def observe (s : State α) : Observed α := ⟨s, .notCalled, 0⟩

variable {s t : Observed α}

theorem counters_mono {s t : State α} (h : Step cfg s a t) :
    s.eventsReceived ≤ t.eventsReceived ∧ s.eventsPublished ≤ t.eventsPublished := by
  cases h <;> simp

/-- What the loaded values say about the counters that have moved on since. -/
def Loaded (cfg : Config α) (s : Observed α) : Prop :=
  match s.stats with
  | .notCalled => True
  | .loadedReceived r => r ≤ s.pipeline.eventsReceived
  | .loadedPublished r p => r ≤ s.pipeline.eventsReceived ∧ p ≤ s.pipeline.eventsPublished
  | .loadedFailures r p f => p + f ≤ r + s.arrivals
  | .loadedMark r p f h => p + f ≤ r + s.arrivals ∧ h ≤ cfg.capacity
  | .returned st => st.eventsPublished + st.publishFailures ≤ st.eventsReceived + s.arrivals ∧
      st.queueHighWaterMark ≤ st.queueCapacity ∧ st.queueCapacity = cfg.capacity

/-- The observer changes nothing it observes. -/
theorem observe_reachable {o : Option Thread}
    (hp : Reachable (Step cfg) (initial cfg script) s.pipeline) (h : Observe cfg s o t) :
    Reachable (Step cfg) (initial cfg script) t.pipeline := by
  cases h with
  | pipeline hs => exact hp.snoc hs
  | _ => exact hp

theorem loaded_pipeline {u : State α} (h : Step cfg s.pipeline a u) (hs : Loaded cfg s) :
    Loaded cfg { s with pipeline := u } := by
  obtain ⟨hr, hp⟩ := counters_mono h
  unfold Loaded at *
  cases hpc : s.stats <;> simp only [hpc] at hs ⊢
  case loadedReceived => exact hs.trans hr
  case loadedPublished => exact ⟨hs.1.trans hr, hs.2.trans hp⟩
  all_goals exact hs

theorem loaded_step {o : Option Thread} (h : Observe cfg s o t)
    (hp : Reachable (Step cfg) (initial cfg script) s.pipeline) (hs : Loaded cfg s) :
    Loaded cfg t := by
  have hle := counted_le (ledger_reachable hp)
  have hq := queue_bounded hp
  have hcap := hq.capacity
  cases h with
  | pipeline h => exact loaded_pipeline h hs
  | loadReceived hpc => exact Nat.le_refl _
  | loadPublished hpc =>
    simp only [Loaded, hpc] at hs
    exact ⟨hs, Nat.le_refl _⟩
  | loadFailures hpc =>
    simp only [Loaded, hpc] at hs ⊢
    omega
  | loadMark hpc =>
    simp only [Loaded, hpc] at hs
    exact ⟨hs, hcap ▸ hq.mark⟩
  | loadCapacity hpc =>
    simp only [Loaded, hpc] at hs
    exact ⟨hs.1, hcap.symm ▸ hs.2, hcap⟩

theorem loaded_reachable (h : Reachable (Observe cfg) (observe (initial cfg script)) s) :
    Loaded cfg s := by
  have hinv := h.invariant
    (P := fun s => Reachable (Step cfg) (initial cfg script) s.pipeline ∧ Loaded cfg s)
    ⟨Reachable.refl _, trivial⟩
    fun ht hs => ⟨observe_reachable ht.1 hs, loaded_step hs ht.1 ht.2⟩
  exact hinv.2

/-- One event arrives after `events_received_` has been loaded and is published before
`events_published_` is. -/
theorem late_arrival :
    ∃ s : Observed ℕ, Reachable (Observe ⟨1, .ofList [7], fun _ => true, false⟩)
        (observe (initial ⟨1, .ofList [7], fun _ => true, false⟩ [.start])) s ∧
      s.stats = .returned ⟨0, 1, 0, 1, 1⟩ ∧ s.arrivals = 1 := by
  have h₁ : Reachable (Observe ⟨1, .ofList [7], fun _ => true, false⟩)
      (observe (initial ⟨1, .ofList [7], fun _ => true, false⟩ [.start])) _ :=
    (Reachable.refl _).snoc (.pipeline (.start rfl rfl))
  have h₂ := h₁.snoc (.pipeline (.launchIngest rfl rfl))
  have h₃ := h₂.snoc (.pipeline (.launchPublish rfl rfl))
  have h₄ := h₃.snoc (.loadReceived rfl)
  have h₅ := h₄.snoc (.pipeline (.callNext rfl))
  have h₆ := h₅.snoc (.pipeline (.nextTrue (e := 7) rfl (Or.inl ⟨rfl, rfl⟩)))
  have h₇ := h₆.snoc (.pipeline (.countReceived rfl))
  have h₈ := h₇.snoc (.pipeline (.record rfl))
  have h₉ := h₈.snoc (.pipeline (.pushTrue rfl rfl rfl))
  have h₁₀ := h₉.snoc (.pipeline (.popTrue rfl rfl rfl))
  have h₁₁ := h₁₀.snoc (.pipeline (.publish rfl))
  have h₁₂ := h₁₁.snoc (.pipeline (.publishReturn rfl))
  have h₁₃ := h₁₂.snoc (.pipeline (.countPublished rfl))
  have h₁₄ := h₁₃.snoc (.loadPublished rfl)
  have h₁₅ := h₁₄.snoc (.loadFailures rfl)
  have h₁₆ := h₁₅.snoc (.loadMark rfl)
  have h₁₇ := h₁₆.snoc (.loadCapacity rfl)
  exact ⟨_, h₁₇, rfl, rfl⟩

/-- A snapshot is short of received events by no more than arrived while it was taken,
so it is consistent whenever none did. -/
theorem stats_short_by_arrivals (cfg : Config α) (script : List Call) {st : Stats}
    (h : Reachable (Observe cfg) (observe (initial cfg script)) s) (hst : s.stats = .returned st) :
    st.eventsPublished + st.publishFailures ≤ st.eventsReceived + s.arrivals ∧
      st.queueHighWaterMark ≤ st.queueCapacity := by
  have hl := loaded_reachable h
  simp only [Loaded, hst] at hl
  exact ⟨hl.1, hl.2.1⟩

theorem stats_short_by_one :
    ∃ (s : Observed ℕ) (st : Stats), Reachable (Observe ⟨1, .ofList [7], fun _ => true, false⟩)
        (observe (initial ⟨1, .ofList [7], fun _ => true, false⟩ [.start])) s ∧
      s.stats = .returned st ∧
      st.eventsPublished + st.publishFailures ≤ st.eventsReceived + s.arrivals := by
  obtain ⟨s, h, hst, -⟩ := late_arrival
  exact ⟨s, _, h, hst, (stats_short_by_arrivals _ _ h hst).1⟩

/-- A snapshot of a running pipeline need not be consistent. -/
theorem stats_published_not_received :
    ∃ (s : Observed ℕ) (st : Stats), Reachable (Observe ⟨1, .ofList [7], fun _ => true, false⟩)
        (observe (initial ⟨1, .ofList [7], fun _ => true, false⟩ [.start])) s ∧
      s.stats = .returned st ∧
      ¬ (st.eventsPublished + st.publishFailures ≤ st.eventsReceived) := by
  obtain ⟨s, h, hst, -⟩ := late_arrival
  exact ⟨s, _, h, hst, by decide⟩

end TickForge.IngestionPipeline
