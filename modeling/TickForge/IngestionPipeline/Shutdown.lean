import TickForge.IngestionPipeline.Conservation

/-! `requestStop()` then `stop()`: who can always move, and for how long. -/
namespace TickForge.IngestionPipeline

open Transition BoundedQueue

variable {α : Type*} {cfg : Config α} {s t : State α} {a : Thread} {script : List Call}

/-- What is assumed of a source: `next()` returns, and with false once `stop()` came first. -/
structure Source.Obeys (src : Source α) : Prop where
  returns : ∀ k late now, ∃ r, src.mayReturn k late now r
  stops : ∀ k now e, ¬ src.mayReturn k true now (some e)

theorem Source.ofList_obeys (events : List α) : (Source.ofList events).Obeys where
  returns k late now := by
    cases late with
    | false => exact ⟨_, Or.inl ⟨rfl, rfl⟩⟩
    | true => exact ⟨_, Or.inr ⟨Or.inl rfl, rfl⟩⟩
  stops k now e h := by simp [Source.ofList] at h

theorem capacity_step (h : Step cfg s a t) : t.queue.capacity = s.queue.capacity := by
  cases h with
  | pushTrue _ _ hp => exact (push_true hp).2.2.2.1
  | pushFalse _ _ hp => exact congrArg _ (push_false hp).2
  | popTrue _ _ hp => exact (pop_some hp).2.2.1
  | popFalse _ _ hp => exact congrArg _ (pop_none hp).2
  | _ => rfl

/-- The ingest thread waits only in `push()`. -/
theorem ingest_moves (hsrc : cfg.source.Obeys) (hr : s.ingest.life = .running)
    (hp : s.queue.canPush = true ∨ ∀ e, s.ingest ≠ .pushing e) : ∃ a t, Step cfg s a t := by
  cases hi : s.ingest with
  | notStarted => simp [hi, IngestPC.life] at hr
  | atNext => exact ⟨_, _, .callNext hi⟩
  | inNext late =>
    obtain ⟨r, hret⟩ := hsrc.returns s.nextCalls late s.sourceStopped
    cases r with
    | none => exact ⟨_, _, .nextFalse hi hret⟩
    | some e => exact ⟨_, _, .nextTrue hi hret⟩
  | received e => exact ⟨_, _, .countReceived hi⟩
  | counted e => exact ⟨_, _, .record hi⟩
  | pushing e =>
    rcases hp with hp | hp
    · rcases hpush : s.queue.push e with ⟨b, q⟩
      cases b with
      | true => exact ⟨_, _, .pushTrue hi hp hpush⟩
      | false => exact ⟨_, _, .pushFalse hi hp hpush⟩
    · exact (hp e hi).elim
  | exiting => exact ⟨_, _, .finishIngest hi⟩
  | done => simp [hi, IngestPC.life] at hr

/-- The publish thread waits only in `pop()`. -/
theorem publish_moves (hr : s.publish.life = .running) (hp : s.queue.canPop = true) :
    ∃ a t, Step cfg s a t := by
  cases hi : s.publish with
  | notStarted => simp [hi, PublishPC.life] at hr
  | atPop =>
    rcases hpop : s.queue.pop with ⟨o, q⟩
    cases o with
    | none => exact ⟨_, _, .popFalse hi hp hpop⟩
    | some e => exact ⟨_, _, .popTrue hi hp hpop⟩
  | popped e => exact ⟨_, _, .publish hi⟩
  | inPublish e => exact ⟨_, _, .publishReturn hi⟩
  | returned b =>
    cases b with
    | true => exact ⟨_, _, .countPublished hi⟩
    | false => exact ⟨_, _, .countFailure hi⟩
  | flushing => exact ⟨_, _, .flush hi⟩
  | done => simp [hi, PublishPC.life] at hr

theorem life_running {l : Life} (h : l ≠ .notStarted) (hd : l ≠ .done) : l = .running := by
  cases l <;> simp_all

/-- While the owner waits for the ingest thread, a full queue has something to pop. -/
theorem joinIngest_moves (hsrc : cfg.source.Obeys) (hcap : 1 ≤ s.queue.capacity)
    (hf : Flow cfg s) (ho : s.owner = .joinIngest) : ∃ a t, Step cfg s a t := by
  have hc := hf.control
  unfold Control at hc
  rw [ho] at hc
  by_cases hd : s.ingest = .done
  · exact ⟨_, _, .joinIngest ho (fun _ => hd)⟩
  · have hi := life_running hc.ingest (by simpa using hd)
    cases hp : s.queue.canPush with
    | true => exact ingest_moves hsrc hi (Or.inl hp)
    | false =>
      have hne : s.queue.queue ≠ [] := by
        have hfull := (canPush_false.mp hp).1
        exact List.length_pos_iff.mp (by omega)
      have hpd : s.publish ≠ .done := by
        intro hpd
        exact hne (hf.drained (Or.inr hpd)).2
      exact publish_moves (life_running hc.publish (by simpa using hpd))
        (canPop_iff.mpr (Or.inl hne))

theorem idle_moves (ho : s.owner = .idle) (hs : s.script ≠ []) : ∃ a t, Step cfg s a t := by
  obtain ⟨c, rest, hscript⟩ := List.exists_cons_of_ne_nil hs
  cases c with
  | start => exact ⟨_, _, .startThrows ho hscript⟩
  | requestStop => exact ⟨_, _, .requestStop ho hscript⟩
  | stop =>
    cases hb : (s.stopped || !s.started) with
    | true => exact ⟨_, _, .stopIdle ho hscript hb⟩
    | false => exact ⟨_, _, .stop ho hscript hb⟩

/-- With room for one event no combination of positions blocks all three threads. -/
theorem returned_or_moves (hsrc : cfg.source.Obeys) (hcap : 1 ≤ s.queue.capacity)
    (hf : Flow cfg s) : Returned s ∨ ∃ a t, Step cfg s a t := by
  have hc := hf.control
  unfold Control at hc
  cases ho : s.owner <;> rw [ho] at hc <;> dsimp only at hc
  case idle =>
    by_cases hs : s.script = []
    · exact Or.inl ⟨ho, hs⟩
    · exact Or.inr (idle_moves ho hs)
  case launchIngest => exact Or.inr ⟨_, _, .launchIngest ho hc.2.ingestJoinable⟩
  case launchPublish => exact Or.inr ⟨_, _, .launchPublish ho hc.publishJoinable⟩
  case joinIngest => exact Or.inr (joinIngest_moves hsrc hcap hf ho)
  case shutDownQueue => exact Or.inr ⟨_, _, .shutDownQueue ho⟩
  case joinPublish =>
    by_cases hd : s.publish = .done
    · exact Or.inr ⟨_, _, .joinPublish ho (fun _ => hd)⟩
    · exact Or.inr (publish_moves (life_running hc.publish (by simpa using hd))
        (canPop_iff.mpr (Or.inr hc.shutDown)))

/-- Actions left for the ingest thread once its source is stopped. A push moves its
event to the queue, where it is still worth four actions of the publish thread. -/
def IngestPC.rank : IngestPC α → ℕ
  | .notStarted | .done => 0
  | .exiting => 1
  | .inNext true => 2
  | .atNext => 3
  | .pushing _ => 8
  | .counted _ => 9
  | .received _ => 10
  | .inNext false => 11

def PublishPC.rank : PublishPC α → ℕ
  | .notStarted | .done => 0
  | .flushing => 1
  | .atPop => 2
  | .returned _ => 3
  | .inPublish _ => 4
  | .popped _ => 5

def OwnerPC.rank : OwnerPC → ℕ
  | .idle | .launchIngest | .launchPublish => 0
  | .joinPublish => 1
  | .shutDownQueue => 2
  | .joinIngest => 3

def rank (s : State α) : ℕ :=
  4 * s.script.length + s.owner.rank + s.ingest.rank + s.publish.rank + 4 * s.queue.queue.length

/-- `start()` is over and the source of a running ingest thread has been stopped. -/
structure Stopping (s : State α) : Prop where
  noStart : .start ∉ s.script
  notLaunchIngest : s.owner ≠ .launchIngest
  notLaunchPublish : s.owner ≠ .launchPublish
  source : s.ingest.life = .running → s.sourceStopped = true

theorem stopping_step (h : Step cfg s a t) (hs : Stopping s) : Stopping t := by
  obtain ⟨hn, hl, hp, hsrc⟩ := hs
  by_cases ha : a = .owner
  · subst ha
    cases h with
    | startThrows _ hscript | start _ hscript => simp [hscript] at hn
    | launchIngest ho => exact (hl ho).elim
    | launchPublish ho => exact (hp ho).elim
    | requestStop ho hscript =>
      rw [hscript] at hn
      exact ⟨fun hm => hn (List.mem_cons_of_mem _ hm), hl, hp, fun hr => by simp [hsrc hr]⟩
    | stopIdle ho hscript =>
      rw [hscript] at hn
      exact ⟨fun hm => hn (List.mem_cons_of_mem _ hm), hl, hp, hsrc⟩
    | stop ho hscript =>
      rw [hscript] at hn
      exact ⟨fun hm => hn (List.mem_cons_of_mem _ hm), by simp, by simp, hsrc⟩
    | joinIngest | shutDownQueue | joinPublish => exact ⟨hn, by simp, by simp, hsrc⟩
  · obtain ⟨ho, hscript, -, -, -, -, -, hst, hi, -, -⟩ := worker_frame h ha
    refine ⟨hscript ▸ hn, ho ▸ hl, ho ▸ hp, fun hr => hst.trans (hsrc ?_)⟩
    rcases hi with hi | hi
    · exact hi ▸ hr
    · exact hi.1

/-- Every action of every thread uses up rank once the source is stopped. -/
theorem rank_step (hsrc : cfg.source.Obeys) (h : Step cfg s a t) (hs : Stopping s) :
    rank t < rank s := by
  unfold rank
  cases h with
  | startThrows _ hscript | start _ hscript =>
    have := hs.noStart
    simp [hscript] at this
  | launchIngest ho => exact (hs.notLaunchIngest ho).elim
  | launchPublish ho => exact (hs.notLaunchPublish ho).elim
  | requestStop ho hscript | stopIdle ho hscript =>
    simp only [hscript, List.length_cons]
    omega
  | stop ho hscript =>
    simp only [ho, hscript, List.length_cons, OwnerPC.rank]
    omega
  | joinIngest ho | shutDownQueue ho | joinPublish ho =>
    simp only [ho, OwnerPC.rank, BoundedQueue.shutdown]
    omega
  | callNext hi =>
    have := hs.source (by simp [hi, IngestPC.life])
    simp only [hi, this, IngestPC.rank]
    omega
  | @nextTrue late e hi hr =>
    cases late with
    | true => exact (hsrc.stops _ _ _ hr).elim
    | false =>
      simp only [hi, IngestPC.rank]
      omega
  | @nextFalse late hi hr =>
    cases late <;> simp only [hi, IngestPC.rank] <;> omega
  | countReceived hi | record hi | finishIngest hi =>
    simp only [hi, IngestPC.rank]
    omega
  | pushTrue hi _ hp =>
    simp only [hi, (push_true hp).2.2.1, IngestPC.rank, List.length_append, List.length_singleton]
    omega
  | pushFalse hi _ hp =>
    simp only [hi, (push_false hp).2, IngestPC.rank]
    omega
  | popTrue hi _ hp =>
    simp only [hi, (pop_some hp).1, PublishPC.rank, List.length_cons]
    omega
  | popFalse hi _ hp =>
    simp only [hi, (pop_none hp).2, PublishPC.rank]
    omega
  | publish hi | publishReturn hi | countPublished hi | countFailure hi | flush hi =>
    simp only [hi, PublishPC.rank]
    omega

/-- The owner's progress through `start()`, `requestStop()`, `stop()`. -/
def Scripted (s : State α) : Prop :=
  (s.script = [.start, .requestStop, .stop] ∧ s.owner = .idle) ∨
  s.script = [.requestStop, .stop] ∨
  (s.script = [.stop] ∧ s.owner = .idle ∧ (s.started = true → s.sourceStopped = true)) ∨
  (s.script = [] ∧ s.owner ≠ .launchIngest ∧ s.owner ≠ .launchPublish ∧
    (s.started = true → s.sourceStopped = true))

theorem scripted_step (h : Step cfg s a t) (hs : Scripted s) : Scripted t := by
  unfold Scripted at *
  by_cases ha : a = .owner
  · subst ha
    cases h with
    | joinPublish ho =>
      rcases hs with ⟨-, hs⟩ | hs | ⟨-, hs, -⟩ | ⟨hs, -, -, hst⟩
      · simp [ho] at hs
      · exact Or.inr (Or.inl hs)
      · simp [ho] at hs
      · exact Or.inr (Or.inr (Or.inr ⟨hs, by simp, by simp, hst⟩))
    | _ => simp_all
  · obtain ⟨ho, hscript, hst, -, -, -, -, hsrc, -⟩ := worker_frame h ha
    rwa [ho, hscript, hst, hsrc]

/-- Upper bound on the actions left, from the queue length and the events in hand. -/
def stepsToReturn (s : State α) : ℕ :=
  20 + 4 * (s.queue.queue.length + s.ingest.held.length + s.publish.held.length)

/-- After `requestStop()` the source is stopped and at most `stop()` is still to be called. -/
theorem Scripted.stopping (hs : Scripted s) (hc : Control s) (h : .requestStop ∉ s.script) :
    Stopping s ∧ rank s ≤ stepsToReturn s := by
  have hstarted : s.ingest.life = .running → s.started = true := by
    intro hr
    unfold Control at hc
    cases ho : s.owner <;> rw [ho] at hc <;> dsimp only at hc
    case idle =>
      rcases hc with ⟨-, hc⟩ | hc | hc
      · simp [hc.ingest] at hr
      · exact hc.started
      · exact hc.started
    case launchIngest => exact hc.1
    all_goals exact hc.started
  have hi : s.ingest.rank ≤ 11 := by
    cases s.ingest with
    | inNext late => cases late <;> simp [IngestPC.rank]
    | _ => simp [IngestPC.rank]
  have hp : s.publish.rank ≤ 5 := by
    cases s.publish <;> simp [PublishPC.rank]
  rcases hs with ⟨hs, -⟩ | hs | ⟨hs, ho, hst⟩ | ⟨hs, hl, hp', hst⟩
  · simp [hs] at h
  · simp [hs] at h
  · refine ⟨⟨by simp [hs], by simp [ho], by simp [ho], fun hr => hst (hstarted hr)⟩, ?_⟩
    simp only [rank, stepsToReturn, hs, ho, OwnerPC.rank, List.length_singleton]
    omega
  · refine ⟨⟨by simp [hs], hl, hp', fun hr => hst (hstarted hr)⟩, ?_⟩
    have hor : s.owner.rank ≤ 3 := by
      cases s.owner <;> simp [OwnerPC.rank]
    simp only [rank, stepsToReturn, hs, List.length_nil]
    omega

/-- The invariants of a run over `start()`, `requestStop()`, `stop()`. -/
theorem shutdown_reachable (h : Reachable (Step cfg) (initial cfg [.start, .requestStop, .stop]) s) :
    Flow cfg s ∧ Scripted s ∧ s.queue.capacity = cfg.capacity := by
  have hone : OneStart [.start, .requestStop, .stop] := by decide
  apply h.invariant (P := fun s => Flow cfg s ∧ Scripted s ∧ s.queue.capacity = cfg.capacity)
  · exact ⟨flow_initial hone, Or.inl ⟨rfl, rfl⟩, rfl⟩
  · rintro t a u ⟨hf, hs, hc⟩ hstep
    exact ⟨flow_step hstep hf, scripted_step hstep hs, (capacity_step hstep).trans hc⟩

/-- The circular wait: `stop()` on the ingest thread, that thread on a slot, the
publish thread on an event. -/
theorem stuck_of_circular_wait {e : α} (ho : s.owner = .joinIngest) (hj : s.ingestJoinable = true)
    (hi : s.ingest = .pushing e) (hp : s.publish = .atPop) (hpush : s.queue.canPush = false)
    (hpop : s.queue.canPop = false) : Stuck (Step cfg) s := by
  intro a t h
  cases h <;> simp_all

/-- With no slot at all, the first event closes the circle. -/
theorem circular_wait_reachable {e : α} (hcap : cfg.capacity = 0)
    (hy : cfg.source.mayReturn 0 false false (some e)) :
    ∃ s, Reachable (Step cfg) (initial cfg [.start, .requestStop, .stop]) s ∧
      ¬ Returned s ∧ Stuck (Step cfg) s := by
  have h₁ : Reachable (Step cfg) (initial cfg [.start, .requestStop, .stop]) _ :=
    (Reachable.refl _).snoc (.start rfl rfl)
  have h₂ := h₁.snoc (.launchIngest rfl rfl)
  have h₃ := h₂.snoc (.launchPublish rfl rfl)
  have h₄ := h₃.snoc (.callNext rfl)
  have h₅ := h₄.snoc (.nextTrue (e := e) rfl hy)
  have h₆ := h₅.snoc (.countReceived rfl)
  have h₇ := h₆.snoc (.record rfl)
  have h₈ := h₇.snoc (.requestStop rfl rfl)
  have h₉ := h₈.snoc (.stop rfl rfl rfl)
  refine ⟨_, h₉, by simp [Returned], ?_⟩
  exact stuck_of_circular_wait rfl rfl rfl rfl (by simp [initial, new, canPush, hcap]) rfl

/-- A stuck state is reachable exactly for capacity 0; otherwise every continuation
after `requestStop()` returns from `stop()` within a bounded number of actions. -/
theorem deadlock_iff_capacity_zero (cfg : Config α) (hsrc : cfg.source.Obeys)
    (hy : ∃ e, cfg.source.mayReturn 0 false false (some e)) :
    ((∃ s, Reachable (Step cfg) (initial cfg [.start, .requestStop, .stop]) s ∧
      ¬ Returned s ∧ Stuck (Step cfg) s) ↔ cfg.capacity = 0) ∧
    (1 ≤ cfg.capacity → ∀ s, Reachable (Step cfg) (initial cfg [.start, .requestStop, .stop]) s →
      .requestStop ∉ s.script → Within (Step cfg) Returned (stepsToReturn s) s) := by
  refine ⟨⟨?_, ?_⟩, ?_⟩
  · rintro ⟨s, hr, hn, hstuck⟩
    obtain ⟨hf, -, hcap⟩ := shutdown_reachable hr
    by_contra hne
    rcases returned_or_moves hsrc (by omega : 1 ≤ s.queue.capacity) hf with h | ⟨a, t, h⟩
    · exact hn h
    · exact hstuck a t h
  · intro hcap
    obtain ⟨e, he⟩ := hy
    exact circular_wait_reachable hcap he
  · intro hcap s hr hreq
    obtain ⟨hf, hsc, hc⟩ := shutdown_reachable hr
    obtain ⟨hst, hle⟩ := hsc.stopping hf.control hreq
    refine within_of_rank (I := fun s => Flow cfg s ∧ Stopping s ∧ 1 ≤ s.queue.capacity) rank
      ?_ ?_ ?_ ⟨hf, hst, by omega⟩ hle
    · rintro u a v ⟨hu, hs, hc⟩ hstep
      exact ⟨flow_step hstep hu, stopping_step hstep hs, (capacity_step hstep).symm ▸ hc⟩
    · rintro u a v ⟨-, hs, -⟩ hstep
      exact rank_step hsrc hstep hs
    · rintro u ⟨hu, -, hc⟩
      exact returned_or_moves hsrc hc hu

/-- A one-event source: stuck with capacity 0, and not with capacity 1. -/
theorem deadlock_iff_capacity_zero_one_event :
    (∃ s : State ℕ, Reachable (Step ⟨0, .ofList [7], fun _ => true, false⟩)
      (initial ⟨0, .ofList [7], fun _ => true, false⟩ [.start, .requestStop, .stop]) s ∧
      ¬ Returned s ∧ Stuck (Step ⟨0, .ofList [7], fun _ => true, false⟩) s) ∧
    ¬ ∃ s : State ℕ, Reachable (Step ⟨1, .ofList [7], fun _ => true, false⟩)
      (initial ⟨1, .ofList [7], fun _ => true, false⟩ [.start, .requestStop, .stop]) s ∧
      ¬ Returned s ∧ Stuck (Step ⟨1, .ofList [7], fun _ => true, false⟩) s := by
  constructor
  · exact (deadlock_iff_capacity_zero ⟨0, .ofList [7], fun _ => true, false⟩
      (Source.ofList_obeys [7]) ⟨7, Or.inl ⟨rfl, rfl⟩⟩).1.mpr rfl
  · intro h
    have := (deadlock_iff_capacity_zero ⟨1, .ofList [7], fun _ => true, false⟩
      (Source.ofList_obeys [7]) ⟨7, Or.inl ⟨rfl, rfl⟩⟩).1.mp h
    simp at this

end TickForge.IngestionPipeline
