import TickForge.IngestionPipeline.Basic

/-! Which threads exist, and whether the queue is open, at every position of the owner. -/
namespace TickForge.IngestionPipeline

open Transition

variable {α : Type*} {cfg : Config α} {s t : State α} {a : Thread} {script : List Call}

/-- How far a worker thread is through its life. -/
inductive Life where
  | notStarted
  | running
  | done
  deriving DecidableEq, Repr

def IngestPC.life : IngestPC α → Life
  | .notStarted => .notStarted
  | .done => .done
  | _ => .running

def PublishPC.life : PublishPC α → Life
  | .notStarted => .notStarted
  | .done => .done
  | _ => .running

theorem IngestPC.life_eq_notStarted {p : IngestPC α} :
    p.life = .notStarted ↔ p = .notStarted := by
  cases p <;> simp [IngestPC.life]

theorem PublishPC.life_eq_notStarted {p : PublishPC α} :
    p.life = .notStarted ↔ p = .notStarted := by
  cases p <;> simp [PublishPC.life]

@[simp] theorem IngestPC.life_eq_done {p : IngestPC α} : p.life = .done ↔ p = .done := by
  cases p <;> simp [IngestPC.life]

@[simp] theorem PublishPC.life_eq_done {p : PublishPC α} : p.life = .done ↔ p = .done := by
  cases p <;> simp [PublishPC.life]

/-- Nothing launched; also what a `start()` that threw leaves behind. -/
structure Fresh (s : State α) : Prop where
  stopped : s.stopped = false
  ingest : s.ingest.life = .notStarted
  publish : s.publish.life = .notStarted
  ingestJoinable : s.ingestJoinable = false
  publishJoinable : s.publishJoinable = false
  shutDown : s.queue.shutDown = false

/-- Both workers launched, the queue still open. -/
structure Running (s : State α) : Prop where
  started : s.started = true
  stopped : s.stopped = false
  ingest : s.ingest.life ≠ .notStarted
  publish : s.publish.life ≠ .notStarted
  ingestJoinable : s.ingestJoinable = true
  publishJoinable : s.publishJoinable = true
  shutDown : s.queue.shutDown = false

/-- Between the two launches of `start()`. -/
structure Launching (s : State α) : Prop where
  started : s.started = true
  stopped : s.stopped = false
  ingest : s.ingest.life ≠ .notStarted
  publish : s.publish.life = .notStarted
  ingestJoinable : s.ingestJoinable = true
  publishJoinable : s.publishJoinable = false
  shutDown : s.queue.shutDown = false

/-- The ingest thread is joined and the publish thread is not. -/
structure Draining (closed : Bool) (s : State α) : Prop where
  started : s.started = true
  stopped : s.stopped = false
  ingest : s.ingest.life = .done
  publish : s.publish.life ≠ .notStarted
  publishJoinable : s.publishJoinable = true
  shutDown : s.queue.shutDown = closed

/-- `stop()` has joined both workers. -/
structure Finished (s : State α) : Prop where
  started : s.started = true
  stopped : s.stopped = true
  ingest : s.ingest.life = .done
  publish : s.publish.life = .done
  shutDown : s.queue.shutDown = true

/-- Between the owner's calls. -/
def AtRest (s : State α) : Prop := (s.started = false ∧ Fresh s) ∨ Running s ∨ Finished s

/-- The queue is shut down only after the ingest thread has been joined. -/
def Control (s : State α) : Prop :=
  match s.owner with
  | .idle => AtRest s
  | .launchIngest => s.started = true ∧ Fresh s
  | .launchPublish => Launching s
  | .joinIngest => Running s
  | .shutDownQueue => Draining false s
  | .joinPublish => Draining true s

/-- `start()` is still to come only while nothing has been started. -/
structure StartsOnce (s : State α) : Prop where
  count : s.script.count .start ≤ 1
  started : s.started = true → .start ∉ s.script

/-- What a step of a worker leaves alone, and how its own life may move. -/
theorem worker_frame (h : Step cfg s a t) (ha : a ≠ .owner) :
    t.owner = s.owner ∧ t.script = s.script ∧ t.started = s.started ∧ t.stopped = s.stopped ∧
      t.ingestJoinable = s.ingestJoinable ∧ t.publishJoinable = s.publishJoinable ∧
      t.queue.shutDown = s.queue.shutDown ∧ t.sourceStopped = s.sourceStopped ∧
      (t.ingest = s.ingest ∨ (s.ingest.life = .running ∧ t.ingest.life ≠ .notStarted)) ∧
      (t.publish = s.publish ∨ (s.publish.life = .running ∧ t.publish.life ≠ .notStarted)) ∧
      (t.ingest ≠ s.ingest ∨ t.publish ≠ s.publish) := by
  cases h with
  | pushTrue hi _ hp =>
    obtain ⟨h1, h2, -⟩ := BoundedQueue.push_true hp
    simp [hi, h1, h2, IngestPC.life]
  | pushFalse hi _ hp => simp [hi, (BoundedQueue.push_false hp).2, IngestPC.life]
  | popTrue hi _ hp => simp [hi, (BoundedQueue.pop_some hp).2.1, PublishPC.life]
  | popFalse hi _ hp => simp [hi, (BoundedQueue.pop_none hp).2, PublishPC.life]
  | callNext hi | nextTrue hi | nextFalse hi | countReceived hi | record hi | finishIngest hi =>
    simp [hi, IngestPC.life]
  | publish hi | publishReturn hi | countPublished hi | countFailure hi | flush hi =>
    simp [hi, PublishPC.life]
  | _ => exact (ha rfl).elim

theorem control_initial : Control (initial cfg script) :=
  Or.inl ⟨rfl, rfl, rfl, rfl, rfl, rfl, rfl⟩

/-- A worker takes a step only while it is running, and never un-launches itself. -/
theorem worker_life (h : Step cfg s a t) (ha : a ≠ .owner) :
    (s.ingest.life = .running ∨ s.publish.life = .running) ∧
    (s.ingest.life = .notStarted → t.ingest.life = .notStarted) ∧
    (s.publish.life = .notStarted → t.publish.life = .notStarted) ∧
    (s.ingest.life = .done → t.ingest.life = .done) ∧
    (s.ingest.life ≠ .notStarted → t.ingest.life ≠ .notStarted) ∧
    (s.publish.life ≠ .notStarted → t.publish.life ≠ .notStarted) := by
  obtain ⟨-, -, -, -, -, -, -, -, hi | hi, hp | hp, hne⟩ := worker_frame h ha <;>
    simp_all

theorem control_worker (h : Step cfg s a t) (ha : a ≠ .owner) (hc : Control s) : Control t := by
  obtain ⟨ho, -, hst, hsp, hij, hpj, hsd, -⟩ := worker_frame h ha
  obtain ⟨hrun, hi0, hp0, hid, hi1, hp1⟩ := worker_life h ha
  unfold Control at hc ⊢
  rw [ho]
  cases hs : s.owner <;> rw [hs] at hc <;> dsimp only at hc ⊢
  case idle =>
    rcases hc with ⟨-, hc⟩ | hc | hc
    · simp [hc.ingest, hc.publish] at hrun
    · exact Or.inr (Or.inl ⟨hst.trans hc.started, hsp.trans hc.stopped, hi1 hc.ingest,
        hp1 hc.publish, hij.trans hc.ingestJoinable, hpj.trans hc.publishJoinable,
        hsd.trans hc.shutDown⟩)
    · simp [hc.ingest, hc.publish] at hrun
  case launchIngest => simp [hc.2.ingest, hc.2.publish] at hrun
  case launchPublish =>
    exact ⟨hst.trans hc.started, hsp.trans hc.stopped, hi1 hc.ingest, hp0 hc.publish,
      hij.trans hc.ingestJoinable, hpj.trans hc.publishJoinable, hsd.trans hc.shutDown⟩
  case joinIngest =>
    exact ⟨hst.trans hc.started, hsp.trans hc.stopped, hi1 hc.ingest, hp1 hc.publish,
      hij.trans hc.ingestJoinable, hpj.trans hc.publishJoinable, hsd.trans hc.shutDown⟩
  case shutDownQueue | joinPublish =>
    exact ⟨hst.trans hc.started, hsp.trans hc.stopped, hid hc.ingest, hp1 hc.publish,
      hpj.trans hc.publishJoinable, hsd.trans hc.shutDown⟩

/-- The owner's remaining calls and the source's stop flag play no part in it. -/
theorem AtRest.congr (h : AtRest s) (script : List Call) (stopped : Bool) :
    AtRest { s with script := script, sourceStopped := stopped } := by
  rcases h with ⟨hst, hf⟩ | hr | hf
  · exact Or.inl ⟨hst, hf.1, hf.2, hf.3, hf.4, hf.5, hf.6⟩
  · exact Or.inr (Or.inl ⟨hr.1, hr.2, hr.3, hr.4, hr.5, hr.6, hr.7⟩)
  · exact Or.inr (Or.inr ⟨hf.1, hf.2, hf.3, hf.4, hf.5⟩)

theorem control_atRest (ho : s.owner = .idle) (h : AtRest s) : Control s := by
  unfold Control
  rwa [ho]

theorem control_owner (h : Step cfg s .owner t) (hc : Control s) (hs : StartsOnce s) :
    Control t := by
  unfold Control at hc
  cases h with
  | startThrows ho _ =>
    rw [ho] at hc
    exact control_atRest ho (hc.congr _ _)
  | start ho hscript =>
    rw [ho] at hc
    have hn : s.started = false := by
      cases hst : s.started with
      | false => rfl
      | true => exact (hs.started hst (by simp [hscript])).elim
    rcases hc with ⟨-, hf⟩ | hr | hf
    · exact ⟨rfl, hf.1, hf.2, hf.3, hf.4, hf.5, hf.6⟩
    · simp [hr.started] at hn
    · simp [hf.started] at hn
  | launchIngest ho _ =>
    rw [ho] at hc
    obtain ⟨hst, hf⟩ := hc
    exact ⟨hst, hf.stopped, by simp [IngestPC.life], hf.publish, rfl, hf.publishJoinable,
      hf.shutDown⟩
  | launchPublish ho _ =>
    rw [ho] at hc
    exact Or.inr (Or.inl ⟨hc.started, hc.stopped, hc.ingest, by simp [PublishPC.life],
      hc.ingestJoinable, rfl, hc.shutDown⟩)
  | requestStop ho _ | stopIdle ho _ _ =>
    rw [ho] at hc
    exact control_atRest ho (hc.congr _ _)
  | stop ho _ hn =>
    rw [ho] at hc
    simp only [Bool.or_eq_false_iff, Bool.not_eq_false'] at hn
    rcases hc with ⟨hf, -⟩ | hr | hf
    · simp [hf] at hn
    · exact ⟨hr.1, hr.2, hr.3, hr.4, hr.5, hr.6, hr.7⟩
    · simp [hf.stopped] at hn
  | joinIngest ho hj =>
    rw [ho] at hc
    exact ⟨hc.started, hc.stopped, by simp [hj hc.ingestJoinable], hc.publish,
      hc.publishJoinable, hc.shutDown⟩
  | shutDownQueue ho =>
    rw [ho] at hc
    exact ⟨hc.started, hc.stopped, hc.ingest, hc.publish, hc.publishJoinable, rfl⟩
  | joinPublish ho hj =>
    rw [ho] at hc
    exact Or.inr (Or.inr ⟨hc.started, rfl, hc.ingest, by simp [hj hc.publishJoinable],
      hc.shutDown⟩)

theorem startsOnce_step (h : Step cfg s a t) (hs : StartsOnce s) : StartsOnce t := by
  have hcount := hs.count
  have hst := hs.started
  cases h with
  | startThrows _ hscript | requestStop _ hscript | stopIdle _ hscript _ | stop _ hscript _ =>
    rw [hscript] at hcount hst
    refine ⟨Nat.le_trans ?_ hcount, fun h hm => hst h (List.mem_cons_of_mem _ hm)⟩
    exact List.count_le_count_cons
  | start _ hscript =>
    rw [hscript, List.count_cons_self] at hcount
    exact ⟨by simp only; omega, fun _ => List.count_eq_zero.mp (by simp only; omega)⟩
  | _ => exact ⟨hcount, hst⟩

theorem control_step (h : Step cfg s a t) (hc : Control s) (hs : StartsOnce s) : Control t := by
  by_cases ha : a = .owner
  · subst ha
    exact control_owner h hc hs
  · exact control_worker h ha hc

theorem Control.ingest_notStarted (hc : Control s) (ho : s.owner = .launchIngest) :
    s.ingest = .notStarted := by
  unfold Control at hc
  rw [ho] at hc
  exact IngestPC.life_eq_notStarted.mp hc.2.ingest

theorem Control.publish_notStarted (hc : Control s) (ho : s.owner = .launchPublish) :
    s.publish = .notStarted := by
  unfold Control at hc
  rw [ho] at hc
  exact PublishPC.life_eq_notStarted.mp hc.publish

/-- The queue is open as long as the ingest thread could still push. -/
theorem Control.ingest_done (hc : Control s) (h : s.queue.shutDown = true) : s.ingest = .done := by
  unfold Control at hc
  rw [← IngestPC.life_eq_done]
  cases ho : s.owner <;> rw [ho] at hc <;> dsimp only at hc
  case idle =>
    rcases hc with ⟨-, hc⟩ | hc | hc
    · simp [hc.shutDown] at h
    · simp [hc.shutDown] at h
    · exact hc.ingest
  case launchIngest => simp [hc.2.shutDown] at h
  case launchPublish | joinIngest | shutDownQueue => simp [hc.shutDown] at h
  case joinPublish => exact hc.ingest

end TickForge.IngestionPipeline
