import TickForge.IngestionPipeline.Conservation

/-! What holds for every sequence of the owner's calls, restarts included. -/
namespace TickForge.IngestionPipeline

open Transition BoundedQueue

variable {α : Type*} {cfg : Config α} {s t : State α} {a : Thread} {script : List Call}

/-- Inside `start()`, after `source_->start()`. -/
def OwnerPC.launching : OwnerPC → Bool
  | .launchIngest | .launchPublish => true
  | _ => false

/-- Inside `stop()`, past its guard. -/
def OwnerPC.stopping : OwnerPC → Bool
  | .joinIngest | .shutDownQueue | .joinPublish => true
  | _ => false

/-- Inside `stop()`, past the first join. -/
def OwnerPC.closing : OwnerPC → Bool
  | .shutDownQueue | .joinPublish => true
  | _ => false

/-- Which threads can be running, from the flags and the owner's position. -/
structure Threads (s : State α) : Prop where
  ingestJoined : s.ingestJoinable = false → s.ingest.life ≠ .running
  publishJoined : s.publishJoinable = false → s.publish.life ≠ .running
  launching : s.owner.launching = true → s.started = true
  launched : s.started = true → s.stopped = false → s.owner.launching = false →
    s.publishJoinable = true
  stopping : s.owner.stopping = true → s.started = true ∧ s.stopped = false
  closing : s.owner.closing = true → s.ingestJoinable = false
  unstarted : s.started = false → s.ingestJoinable = false ∧ s.publishJoinable = false

theorem threads_initial : Threads (initial cfg script) := by
  constructor <;> simp [initial, IngestPC.life, PublishPC.life, OwnerPC.launching,
    OwnerPC.stopping, OwnerPC.closing]

theorem threads_worker (h : Step cfg s a t) (ha : a ≠ .owner) (hs : Threads s) : Threads t := by
  obtain ⟨ho, -, hst, hsp, hij, hpj, -, -, hi, hp, -⟩ := worker_frame h ha
  constructor
  case ingestJoined =>
    intro hj
    have hj' := hs.ingestJoined (hij ▸ hj)
    rcases hi with hi | hi
    · rwa [hi]
    · exact (hj' hi.1).elim
  case publishJoined =>
    intro hj
    have hj' := hs.publishJoined (hpj ▸ hj)
    rcases hp with hp | hp
    · rwa [hp]
    · exact (hj' hp.1).elim
  case launching => rw [ho, hst]; exact hs.launching
  case launched => rw [ho, hst, hsp, hpj]; exact hs.launched
  case stopping => rw [ho, hst, hsp]; exact hs.stopping
  case closing => rw [ho, hij]; exact hs.closing
  case unstarted => rw [hst, hij, hpj]; exact hs.unstarted

theorem threads_owner (h : Step cfg s .owner t) (hs : Threads s) : Threads t := by
  obtain ⟨hij, hpj, hla, hle, hst, hcl, hun⟩ := hs
  cases h with
  | startThrows | requestStop | stopIdle => exact ⟨hij, hpj, hla, hle, hst, hcl, hun⟩
  | start =>
    exact ⟨hij, hpj, fun _ => rfl, by simp [OwnerPC.launching], by rintro ⟨⟩, by rintro ⟨⟩,
      by rintro ⟨⟩⟩
  | launchIngest ho _ =>
    have hstarted := hla (by rw [ho]; rfl)
    exact ⟨by rintro ⟨⟩, hpj, fun _ => hstarted, by simp [OwnerPC.launching], by rintro ⟨⟩,
      by rintro ⟨⟩, by simp [hstarted]⟩
  | launchPublish ho _ =>
    have hstarted := hla (by rw [ho]; rfl)
    exact ⟨hij, by rintro ⟨⟩, by rintro ⟨⟩, fun _ _ _ => rfl, by rintro ⟨⟩, by rintro ⟨⟩,
      by simp [hstarted]⟩
  | stop ho _ hn =>
    simp only [Bool.or_eq_false_iff, Bool.not_eq_false'] at hn
    exact ⟨hij, hpj, by rintro ⟨⟩, fun h1 h2 _ => hle h1 h2 (by rw [ho]; rfl),
      fun _ => ⟨hn.2, hn.1⟩, by rintro ⟨⟩, hun⟩
  | joinIngest ho hj =>
    obtain ⟨hstarted, -⟩ := hst (by rw [ho]; rfl)
    have hdone : s.ingest.life ≠ .running := by
      cases hb : s.ingestJoinable with
      | false => exact hij hb
      | true => simp [hj hb, IngestPC.life]
    exact ⟨fun _ => hdone, hpj, by rintro ⟨⟩, fun h1 h2 _ => hle h1 h2 (by rw [ho]; rfl),
      fun _ => hst (by rw [ho]; rfl), fun _ => rfl, by simp [hstarted]⟩
  | shutDownQueue ho =>
    exact ⟨hij, hpj, by rintro ⟨⟩, fun h1 h2 _ => hle h1 h2 (by rw [ho]; rfl),
      fun _ => hst (by rw [ho]; rfl), fun _ => hcl (by rw [ho]; rfl), hun⟩
  | joinPublish ho hj =>
    obtain ⟨hstarted, -⟩ := hst (by rw [ho]; rfl)
    have hdone : s.publish.life ≠ .running := by
      cases hb : s.publishJoinable with
      | false => exact hpj hb
      | true => simp [hj hb, PublishPC.life]
    exact ⟨hij, fun _ => hdone, by rintro ⟨⟩, by simp, by rintro ⟨⟩, by rintro ⟨⟩,
      by simp [hstarted]⟩

theorem threads_step (h : Step cfg s a t) (hs : Threads s) : Threads t := by
  by_cases ha : a = .owner
  · subst ha
    exact threads_owner h hs
  · exact threads_worker h ha hs

/-- The event the ingest thread has counted and not handed to the queue. -/
def IngestPC.inFlight : IngestPC α → ℕ
  | .counted _ | .pushing _ => 1
  | _ => 0

/-- The event the publish thread has popped and not counted. -/
def PublishPC.inFlight : PublishPC α → ℕ
  | .popped _ | .inPublish _ | .returned _ => 1
  | _ => 0

theorem IngestPC.inFlight_le (p : IngestPC α) : p.inFlight ≤ 1 := by
  cases p <;> simp [IngestPC.inFlight]

theorem PublishPC.inFlight_le (p : PublishPC α) : p.inFlight ≤ 1 := by
  cases p <;> simp [PublishPC.inFlight]

theorem IngestPC.inFlight_eq_zero {p : IngestPC α} (h : p.life ≠ .running) : p.inFlight = 0 := by
  cases p <;> simp_all [IngestPC.inFlight, IngestPC.life]

theorem PublishPC.inFlight_eq_zero {p : PublishPC α} (h : p.life ≠ .running) :
    p.inFlight = 0 := by
  cases p <;> simp_all [PublishPC.inFlight, PublishPC.life]

/-- The queue is shut down by the first `stop()` only, and stays empty after it. -/
structure Closed (s : State α) : Prop where
  shut : s.queue.shutDown = true → s.owner = .joinPublish ∨ s.stopped = true
  joining : s.owner = .joinPublish → s.queue.shutDown = true
  stopped : s.stopped = true →
    s.queue.shutDown = true ∧ s.queue.queue = [] ∧ s.publish.inFlight = 0
  drained : Drained s

theorem closed_initial : Closed (initial cfg script) := by
  constructor <;> simp [initial, BoundedQueue.new, Drained]

theorem closed_worker (h : Step cfg s a t) (ha : a ≠ .owner) (hs : Closed s) : Closed t := by
  obtain ⟨ho, -, -, hsp, -, -, hsd, -⟩ := worker_frame h ha
  refine ⟨by rw [ho, hsp, hsd]; exact hs.shut, by rw [ho, hsd]; exact hs.joining, ?_, ?_⟩
  · intro hst
    have hst' := hsp ▸ hst
    obtain ⟨hshut, hempty, hfly⟩ := hs.stopped hst'
    refine ⟨hsd ▸ hshut, ?_⟩
    cases h with
    | pushTrue _ _ hp => simp [(push_true hp).1] at hshut
    | pushFalse _ _ hp => exact ⟨(push_false hp).2 ▸ hempty, hfly⟩
    | popTrue _ _ hp => simp [(pop_some hp).1] at hempty
    | popFalse _ _ hp => exact ⟨(pop_none hp).2 ▸ hempty, rfl⟩
    | publish hi | publishReturn hi | countPublished hi | countFailure hi =>
      simp [hi, PublishPC.inFlight] at hfly
    | flush => exact ⟨hempty, rfl⟩
    | callNext | nextTrue | nextFalse | countReceived | record | finishIngest =>
      exact ⟨hempty, hfly⟩
    | _ => exact (ha rfl).elim
  · intro hd
    have hdr := hs.drained
    cases h with
    | pushTrue _ _ hp =>
      have hshut := (hdr hd).1
      simp [(push_true hp).1] at hshut
    | pushFalse _ _ hp => exact (push_false hp).2 ▸ hdr hd
    | popTrue | publish | publishReturn | countPublished | countFailure => simp at hd
    | popFalse _ hcan hp =>
      obtain ⟨hq, rfl⟩ := pop_none hp
      exact ⟨shutDown_of_pop_none hcan hp, hq⟩
    | flush hi => exact hdr (Or.inl hi)
    | callNext | nextTrue | nextFalse | countReceived | record | finishIngest => exact hdr hd
    | _ => exact (ha rfl).elim

/-- Outside `joinPublish` a shut queue is a stopped one, wherever the owner goes from there. -/
theorem Closed.shut_elsewhere (hs : Closed s) (ho : s.owner ≠ .joinPublish)
    (h : s.queue.shutDown = true) : s.stopped = true := by
  rcases hs.shut h with hj | hst
  · exact (ho hj).elim
  · exact hst

theorem closed_owner (h : Step cfg s .owner t) (ht : Threads s) (hs : Closed s) : Closed t := by
  cases h with
  | startThrows | requestStop | stopIdle => exact ⟨hs.shut, hs.joining, hs.stopped, hs.drained⟩
  | start ho | launchIngest ho | stop ho | joinIngest ho =>
    exact ⟨fun h => Or.inr (hs.shut_elsewhere (by simp [ho]) h), by rintro ⟨⟩, hs.stopped,
      hs.drained⟩
  | launchPublish ho =>
    refine ⟨fun h => Or.inr (hs.shut_elsewhere (by simp [ho]) h), by rintro ⟨⟩, ?_,
      by simp [Drained]⟩
    intro hst
    obtain ⟨hshut, hempty, -⟩ := hs.stopped hst
    exact ⟨hshut, hempty, rfl⟩
  | shutDownQueue ho =>
    have hst := (ht.stopping (by simp [ho, OwnerPC.stopping])).2
    exact ⟨fun _ => Or.inl rfl, fun _ => rfl, by simp [hst], fun hd => ⟨rfl, (hs.drained hd).2⟩⟩
  | joinPublish ho hj =>
    obtain ⟨hst, hsp⟩ := ht.stopping (by simp [ho, OwnerPC.stopping])
    have hdone := hj (ht.launched hst hsp (by simp [ho, OwnerPC.launching]))
    obtain ⟨hshut, hempty⟩ := hs.drained (Or.inr hdone)
    have hfly : s.publish.inFlight = 0 := by simp [hdone, PublishPC.inFlight]
    exact ⟨fun _ => Or.inr rfl, by simp, fun _ => ⟨hshut, hempty, hfly⟩, hs.drained⟩

theorem closed_step (h : Step cfg s a t) (ht : Threads s) (hs : Closed s) : Closed t := by
  by_cases ha : a = .owner
  · subst ha
    exact closed_owner h ht hs
  · exact closed_worker h ha hs

/-- Every received event is counted as published or failed, or is still on its way. -/
def Balanced (s : State α) : Prop :=
  s.eventsReceived = s.eventsPublished + s.publishFailures + s.queue.size +
    s.ingest.inFlight + s.publish.inFlight

/-- A restarted ingest thread has been refused by the closed queue, and cannot be
started again: nothing joins it. -/
structure Refused (s : State α) : Prop where
  stopped : s.stopped = true
  joinable : s.ingestJoinable = true
  leaving : s.ingest = .exiting ∨ s.ingest = .done
  received : s.eventsReceived = s.eventsPublished + s.publishFailures + 1

theorem Refused.ingest_step (hs : Refused s) (h : Step cfg s .ingest t) :
    t = { s with ingest := .done, ingestFinished := true } := by
  rcases hs.leaving with hl | hl <;> cases h <;> simp_all

/-- The publish thread of a restarted pipeline finds nothing to publish. -/
theorem Closed.publish_step (hs : Closed s) (hst : s.stopped = true) (h : Step cfg s .publish t) :
    t.ingest = s.ingest ∧ t.eventsReceived = s.eventsReceived ∧
      t.eventsPublished = s.eventsPublished ∧ t.publishFailures = s.publishFailures := by
  obtain ⟨-, hempty, hfly⟩ := hs.stopped hst
  cases h with
  | popTrue _ _ hp => simp [(pop_some hp).1] at hempty
  | popFalse | flush => simp
  | publish hi | publishReturn hi | countPublished hi | countFailure hi =>
    simp [hi, PublishPC.inFlight] at hfly

theorem refused_step (h : Step cfg s a t) (ht : Threads s) (hc : Closed s) (hs : Refused s) :
    Refused t := by
  have hne : s.owner.stopping = false := by
    cases hb : s.owner.stopping with
    | false => rfl
    | true =>
      have hst := hs.stopped
      simp [(ht.stopping hb).2] at hst
  obtain ⟨hst, hj, hl, hr⟩ := hs
  cases a with
  | owner =>
    cases h with
    | launchIngest _ hn => simp [hn] at hj
    | stop _ _ hn => simp [hst] at hn
    | joinIngest ho _ | shutDownQueue ho | joinPublish ho _ =>
      simp [ho, OwnerPC.stopping] at hne
    | _ => exact ⟨hst, hj, hl, hr⟩
  | ingest =>
    rw [Refused.ingest_step ⟨hst, hj, hl, hr⟩ h]
    exact ⟨hst, hj, Or.inr rfl, hr⟩
  | publish =>
    obtain ⟨-, -, -, hsp, hij, -⟩ := worker_frame h (by simp)
    obtain ⟨hi, hrec, hpub, hfail⟩ := hc.publish_step hst h
    exact ⟨hsp ▸ hst, hij ▸ hj, hi ▸ hl, by rw [hrec, hpub, hfail, hr]⟩

/-- Only a restarted ingest thread can find the queue shut down. -/
theorem refused_of_push {e : α} (ht : Threads s) (hc : Closed s) (hs : Balanced s)
    (hi : s.ingest = .pushing e) (hshut : s.queue.shutDown = true) :
    s.stopped = true ∧ s.ingestJoinable = true ∧
      s.eventsReceived = s.eventsPublished + s.publishFailures + 1 := by
  have hrun : s.ingest.life = .running := by simp [hi, IngestPC.life]
  have hj : s.ingestJoinable = true := by
    cases hb : s.ingestJoinable with
    | true => rfl
    | false => exact (ht.ingestJoined hb hrun).elim
  have hst : s.stopped = true := by
    rcases hc.shut hshut with ho | hst
    · have := ht.closing (by simp [ho, OwnerPC.closing])
      simp [hj] at this
    · exact hst
  obtain ⟨-, hempty, hfly⟩ := hc.stopped hst
  unfold Balanced at hs
  simp only [hi, hfly, hempty, size, IngestPC.inFlight, List.length_nil] at hs
  exact ⟨hst, hj, by omega⟩

theorem balanced_step (h : Step cfg s a t) (ht : Threads s) (hc : Closed s) (hs : Balanced s) :
    Balanced t ∨ Refused t := by
  cases h with
  | launchIngest ho hj =>
    left
    have hz := IngestPC.inFlight_eq_zero (ht.ingestJoined hj)
    unfold Balanced at hs ⊢
    rwa [hz] at hs
  | launchPublish ho hj =>
    left
    have hz := PublishPC.inFlight_eq_zero (ht.publishJoined hj)
    unfold Balanced at hs ⊢
    rwa [hz] at hs
  | pushFalse hi _ hp =>
    right
    obtain ⟨hshut, rfl⟩ := push_false hp
    obtain ⟨hst, hj, hr⟩ := refused_of_push ht hc hs hi hshut
    exact ⟨hst, hj, Or.inl rfl, hr⟩
  | pushTrue hi _ hp =>
    left
    simp only [Balanced, hi, size, IngestPC.inFlight, (push_true hp).2.2.1, List.length_append,
      List.length_singleton] at hs ⊢
    omega
  | popTrue hi _ hp =>
    left
    simp only [Balanced, hi, size, PublishPC.inFlight, (pop_some hp).1, List.length_cons] at hs ⊢
    omega
  | popFalse hi _ hp =>
    left
    obtain ⟨-, rfl⟩ := pop_none hp
    simpa [Balanced, hi, PublishPC.inFlight] using hs
  | callNext hi | nextTrue hi | nextFalse hi | countReceived hi | record hi | finishIngest hi =>
    left
    simp only [Balanced, hi, IngestPC.inFlight] at hs ⊢
    omega
  | publish hi | publishReturn hi | countPublished hi | countFailure hi | flush hi =>
    left
    simp only [Balanced, hi, PublishPC.inFlight] at hs ⊢
    omega
  | _ => exact Or.inl hs

/-- The invariant of a pipeline under arbitrary calls. -/
structure Ledger (s : State α) : Prop where
  threads : Threads s
  closed : Closed s
  account : Balanced s ∨ Refused s

theorem ledger_initial : Ledger (initial cfg script) :=
  ⟨threads_initial, closed_initial, Or.inl rfl⟩

theorem ledger_step (h : Step cfg s a t) (hs : Ledger s) : Ledger t := by
  refine ⟨threads_step h hs.threads, closed_step h hs.threads hs.closed, ?_⟩
  rcases hs.account with hb | hr
  · exact balanced_step h hs.threads hs.closed hb
  · exact Or.inr (refused_step h hs.threads hs.closed hr)

theorem ledger_reachable (h : Reachable (Step cfg) (initial cfg script) s) : Ledger s :=
  h.invariant ledger_initial fun ht hs => ledger_step hs ht

end TickForge.IngestionPipeline
