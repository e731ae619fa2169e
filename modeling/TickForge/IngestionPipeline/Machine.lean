import TickForge.Lib.Simulation
import TickForge.BoundedQueue.Basic
import TickForge.IngestionPipeline.Restart

/-! The pipeline over the queue as it is: waits, wake-ups and notifications, not guards. -/
namespace TickForge.IngestionPipeline

open Transition
open TickForge.BoundedQueue (Action PC AtPush AtPop)

variable {α : Type*}

/-- The pipeline's members, with where each thread is inside a call of the queue. From
the call's critical section on, its thread's position is the one the call returns to. -/
structure Machine (α : Type*) where
  pipeline : State α
  inside : Thread → PC α

namespace Machine

/-- The queue with the threads that are inside it. -/
def monitor (m : Machine α) : BoundedQueue.State Thread α := ⟨m.pipeline.queue, m.inside⟩

/-- The queue call that stands at a thread's position. -/
def queueCall (s : State α) : Thread → Option (PC α)
  | .owner => if s.owner = .shutDownQueue then some .shuttingDown else none
  | .ingest =>
    match s.ingest with
    | .pushing e => some (.pushing e)
    | _ => none
  | .publish =>
    match s.publish with
    | .atPop => some .popping
    | _ => none

/-- `while (source_->next(event)) … if (!queue_.push(…)) break;` -/
def afterPush : Bool → IngestPC α
  | true => .atNext
  | false => .exiting

/-- `while (queue_.pop(event))` -/
def afterPop : Option α → PublishPC α
  | some e => .popped e
  | none => .flushing

/-- Actions inside the queue that neither begin a call nor are its critical section. -/
def silent : Action α → Bool
  | .park | .notify | .spurious => true
  | _ => false

inductive Step (cfg : Config α) :
    Machine α → Thread × Option (Action α) → Machine α → Prop where
  /-- A thread outside the queue, at a position that does not call it. -/
  | pipeline {m a s} : m.inside a = .idle → queueCall m.pipeline a = none →
      IngestionPipeline.Step cfg m.pipeline a s → Step cfg m (a, none) { m with pipeline := s }
  | call {m a p} : m.inside a = .idle → queueCall m.pipeline a = some p →
      Step cfg m (a, some .call) { m with inside := Function.update m.inside a p }
  | push {m e ok r} : BoundedQueue.Step m.monitor (.ingest, .push e ok) r →
      Step cfg m (.ingest, some (.push e ok))
        ⟨{ m.pipeline with queue := r.q, ingest := afterPush ok }, r.pc⟩
  | pop {m out r} : BoundedQueue.Step m.monitor (.publish, .pop out) r →
      Step cfg m (.publish, some (.pop out))
        ⟨{ m.pipeline with queue := r.q, publish := afterPop out }, r.pc⟩
  | shutdown {m r} : BoundedQueue.Step m.monitor (.owner, .shutdown) r →
      Step cfg m (.owner, some .shutdown)
        ⟨{ m.pipeline with queue := r.q, owner := .joinPublish }, r.pc⟩
  | silent {m a act r} : silent act = true → BoundedQueue.Step m.monitor (a, act) r →
      Step cfg m (a, some act) { m with inside := r.pc }

def initial (cfg : Config α) (script : List Call) : Machine α :=
  ⟨IngestionPipeline.initial cfg script, fun _ => .idle⟩

/-- Where the threads of the pipeline can be inside the queue: the worker threads at
their one call, the owner in `stop()`. -/
def InCall (s : State α) : Thread → PC α → Prop
  | _, .idle => True
  | .owner, .shuttingDown => s.owner = .shutDownQueue
  | .owner, .owesAll | .owner, .owesAllNotEmpty => s.owner = .joinPublish
  | .ingest, .pushing e | .ingest, .parkedNotFull e | .ingest, .wokenNotFull e =>
    s.ingest = .pushing e
  | .ingest, .owesNotEmpty => s.ingest = .atNext
  | .publish, .popping | .publish, .parkedNotEmpty | .publish, .wokenNotEmpty =>
    s.publish = .atPop
  | .publish, .owesNotFull => ∃ e, s.publish = .popped e
  | _, _ => False

structure Coherent (m : Machine α) : Prop where
  threads : Threads m.pipeline
  inCall : ∀ a, InCall m.pipeline a (m.inside a)

/-- The action of the pipeline that a label stands for. -/
def pipelineLabel : Thread × Option (Action α) → Option Thread
  | (a, none) | (a, some (.push _ _)) | (a, some (.pop _)) | (a, some .shutdown) => some a
  | _ => none

/-- The action of the queue that a label stands for. -/
def monitorLabel : Thread × Option (Action α) → Option (Thread × Action α)
  | (a, some act) => some (a, act)
  | (_, none) => none

variable {cfg : Config α} {s : State α} {a b : Thread} {script : List Call} {m n : Machine α}
  {l : Thread × Option (Action α)}

theorem coherent_initial : Coherent (initial cfg script) :=
  ⟨threads_initial, fun a => by cases a <;> trivial⟩

/-- `InCall` looks only at the position of the thread itself. -/
theorem InCall.congr {t : State α} {p : PC α} (h : InCall s a p)
    (ho : a = .owner → t.owner = s.owner) (hi : a = .ingest → t.ingest = s.ingest)
    (hp : a = .publish → t.publish = s.publish) : InCall t a p := by
  cases a with
  | owner => cases p <;> simp_all [InCall]
  | ingest => cases p <;> simp_all [InCall]
  | publish => cases p <;> simp_all [InCall]

/-- A thread that does not run is in no call. -/
theorem InCall.ingest_idle {p : PC α} (h : InCall s .ingest p) (hr : s.ingest.life ≠ .running) :
    p = .idle := by
  cases p <;> simp_all [InCall, IngestPC.life]

theorem InCall.publish_idle {p : PC α} (h : InCall s .publish p)
    (hr : s.publish.life ≠ .running) : p = .idle := by
  cases p with
  | owesNotFull =>
    obtain ⟨e, he⟩ := h
    simp [he, PublishPC.life] at hr
  | _ => simp_all [InCall, PublishPC.life]

theorem InCall.wakeNotFull {p : PC α} (h : InCall s a p) :
    InCall s a (BoundedQueue.wakeNotFull p) := by
  cases a <;> cases p <;> exact h

theorem InCall.wakeNotEmpty {p : PC α} (h : InCall s a p) :
    InCall s a (BoundedQueue.wakeNotEmpty p) := by
  cases a <;> cases p <;> exact h

theorem InCall.atPush {e : α} {p : PC α} (h : InCall s .ingest p) (hp : AtPush e p) :
    s.ingest = .pushing e := by
  rcases hp with rfl | rfl <;> exact h

theorem InCall.atPop {p : PC α} (h : InCall s .publish p) (hp : AtPop p) :
    s.publish = .atPop := by
  rcases hp with rfl | rfl <;> exact h

/-- An action of one thread moves another one only by waking it. -/
theorem other_pc {q r : BoundedQueue.State Thread α} {act : Action α}
    (h : BoundedQueue.Step q (a, act) r) (hb : b ≠ a) :
    r.pc b = q.pc b ∨ r.pc b = BoundedQueue.wakeNotFull (q.pc b) ∨
      r.pc b = BoundedQueue.wakeNotEmpty (q.pc b) := by
  cases h with
  | notifyNotEmpty j _ hj =>
    by_cases hbj : b = j
    · subst hbj
      simp [BoundedQueue.State.setPC, hb, hj, BoundedQueue.wakeNotEmpty]
    · simp [BoundedQueue.State.setPC, hb, hbj]
  | notifyNotFull j x _ hj =>
    by_cases hbj : b = j
    · subst hbj
      simp [BoundedQueue.State.setPC, hb, hj, BoundedQueue.wakeNotFull]
    · simp [BoundedQueue.State.setPC, hb, hbj]
  | notifyAllNotFull | notifyAllNotEmpty =>
    simp [BoundedQueue.State.setPC, BoundedQueue.State.mapPC, hb]
  | size | highWaterMark => exact Or.inl rfl
  | _ => simp [BoundedQueue.State.setPC, BoundedQueue.State.setQ, hb]

theorem InCall.other {q r : BoundedQueue.State Thread α} {act : Action α}
    (h : InCall s b (q.pc b)) (hs : BoundedQueue.Step q (a, act) r) (hb : b ≠ a) :
    InCall s b (r.pc b) := by
  rcases other_pc hs hb with he | he | he <;> rw [he]
  · exact h
  · exact h.wakeNotFull
  · exact h.wakeNotEmpty

theorem pc_setPC (q : BoundedQueue.State Thread α) (a : Thread) (p : PC α) :
    (q.setPC a p).pc a = p := by
  simp [BoundedQueue.State.setPC]

/-- Inside the queue a thread keeps its position from the call to the critical section,
and from there to the return. -/
theorem InCall.silent {q r : BoundedQueue.State Thread α} {act : Action α}
    (h : InCall s a (q.pc a)) (hs : BoundedQueue.Step q (a, act) r)
    (hact : Machine.silent act = true) : InCall s a (r.pc a) := by
  cases hs with
  | pushPark hi _ =>
    rw [pc_setPC]
    rcases hi with hi | hi <;> rw [hi] at h <;> cases a <;> exact h
  | popPark hi _ =>
    rw [pc_setPC]
    rcases hi with hi | hi <;> rw [hi] at h <;> cases a <;> exact h
  | notifyAllNotFull hi | spuriousNotEmpty hi | spuriousNotFull hi =>
    rw [pc_setPC]
    rw [hi] at h
    cases a <;> exact h
  | notifyNotEmpty | notifyNotEmptyLost | notifyNotFull | notifyNotFullLost
    | notifyAllNotEmpty =>
    rw [pc_setPC]
    trivial
  | _ => simp [Machine.silent] at hact

theorem silent_q {q r : BoundedQueue.State Thread α} {act : Action α}
    (hs : BoundedQueue.Step q (a, act) r) (hact : silent act = true) : r.q = q.q := by
  cases hs with
  | pushTrue | pushFalse | popTrue | popFalse | shutdown => simp [silent] at hact
  | _ => rfl

/-- Outside its call of the queue a thread leaves the queue alone. -/
theorem queue_of_no_call {t : State α} (h : IngestionPipeline.Step cfg s a t)
    (hn : queueCall s a = none) : t.queue = s.queue := by
  cases h with
  | pushTrue hi | pushFalse hi | popTrue hi | popFalse hi => simp [queueCall, hi] at hn
  | shutDownQueue ho => simp [queueCall, ho] at hn
  | _ => rfl

/-- A thread inside the queue keeps its position whatever the others do. -/
theorem InCall.step {t : State α} {p : PC α} (h : InCall s b p) (ht : Threads s)
    (hs : IngestionPipeline.Step cfg s a t) (hb : b ≠ a) : InCall t b p := by
  cases hs with
  | launchIngest _ hj =>
    cases b with
    | owner => exact (hb rfl).elim
    | publish => exact h.congr (by rintro ⟨⟩) (by rintro ⟨⟩) (fun _ => rfl)
    | ingest =>
      rw [h.ingest_idle (ht.ingestJoined hj)]
      trivial
  | launchPublish _ hj =>
    cases b with
    | owner => exact (hb rfl).elim
    | ingest => exact h.congr (by rintro ⟨⟩) (fun _ => rfl) (by rintro ⟨⟩)
    | publish =>
      rw [h.publish_idle (ht.publishJoined hj)]
      trivial
  | startThrows | start | requestStop | stopIdle | stop | joinIngest | shutDownQueue
    | joinPublish => exact h.congr (fun he => (hb he).elim) (fun _ => rfl) (fun _ => rfl)
  | callNext | nextTrue | nextFalse | countReceived | record | pushTrue | pushFalse
    | finishIngest => exact h.congr (fun _ => rfl) (fun he => (hb he).elim) (fun _ => rfl)
  | popTrue | popFalse | publish | publishReturn | countPublished | countFailure | flush =>
    exact h.congr (fun _ => rfl) (fun _ => rfl) (fun he => (hb he).elim)

theorem queueCall_cases {p : PC α} (h : queueCall s a = some p) :
    (a = .owner ∧ s.owner = .shutDownQueue ∧ p = .shuttingDown) ∨
    (∃ e, a = .ingest ∧ s.ingest = .pushing e ∧ p = .pushing e) ∨
    (a = .publish ∧ s.publish = .atPop ∧ p = .popping) := by
  cases a with
  | owner =>
    simp only [queueCall] at h
    split at h
    · rename_i ho
      exact Or.inl ⟨rfl, ho, (Option.some.inj h).symm⟩
    · cases h
  | ingest =>
    simp only [queueCall] at h
    split at h
    · rename_i e hi
      exact Or.inr (Or.inl ⟨e, rfl, hi, (Option.some.inj h).symm⟩)
    · cases h
  | publish =>
    simp only [queueCall] at h
    split at h
    · rename_i hp
      exact Or.inr (Or.inr ⟨rfl, hp, (Option.some.inj h).symm⟩)
    · cases h

theorem queueCall_inCall {p : PC α} (h : queueCall s a = some p) : InCall s a p := by
  obtain ⟨rfl, ho, rfl⟩ | ⟨e, rfl, hi, rfl⟩ | ⟨rfl, hp, rfl⟩ := queueCall_cases h
  · exact ho
  · exact hi
  · exact hp

/-- A critical section of the queue is the pipeline's action at that position. -/
theorem section_step (h : Step cfg m l n) (hm : Coherent m) (hl : pipelineLabel l = some b) :
    IngestionPipeline.Step cfg m.pipeline b n.pipeline := by
  cases h with
  | pipeline _ _ hs =>
    cases hl
    exact hs
  | call => cases hl
  | push hs =>
    cases hl
    cases hs with
    | pushTrue hi hc hp => exact .pushTrue ((hm.inCall .ingest).atPush hi) hc hp
    | pushFalse hi hc hp => exact .pushFalse ((hm.inCall .ingest).atPush hi) hc hp
  | pop hs =>
    cases hl
    cases hs with
    | popTrue hi hc hp => exact .popTrue ((hm.inCall .publish).atPop hi) hc hp
    | popFalse hi hc hp => exact .popFalse ((hm.inCall .publish).atPop hi) hc hp
  | shutdown hs =>
    cases hl
    cases hs with
    | shutdown hi =>
      have ho := hm.inCall .owner
      rw [show m.inside .owner = _ from hi] at ho
      exact .shutDownQueue ho
  | @silent a act r hact _ =>
    cases act <;> simp [silent] at hact <;> cases hl

theorem hidden_pipeline (h : Step cfg m l n) (hl : pipelineLabel l = none) :
    n.pipeline = m.pipeline := by
  cases h with
  | call | silent => rfl
  | pipeline | push | pop | shutdown => cases hl

theorem monitor_step {act : Action α} (h : Step cfg m (a, some act) n) :
    BoundedQueue.Step m.monitor (a, act) n.monitor := by
  cases h with
  | call hi hc =>
    obtain ⟨rfl, -, rfl⟩ | ⟨e, rfl, -, rfl⟩ | ⟨rfl, -, rfl⟩ := queueCall_cases hc
    · exact .callShutdown hi
    · exact .callPush e hi
    · exact .callPop hi
  | push hs | pop hs | shutdown hs => exact hs
  | @silent _ _ r hact hs =>
    have hq : monitor { m with inside := r.pc } = r := by
      rw [monitor, ← show r.q = m.pipeline.queue from silent_q hs hact]
    rwa [hq]

theorem coherent_inCall (h : Step cfg m l n) (hm : Coherent m) (b : Thread) :
    InCall n.pipeline b (n.inside b) := by
  have hb := hm.inCall b
  -- A critical section moves the other threads twice: as the pipeline's action and as the queue's.
  have hsection := fun hl => hb.step hm.threads (section_step (b := l.1) h hm hl)
  cases h with
  | @pipeline a s hi _ hs =>
    by_cases hba : b = a
    · subst hba
      dsimp only
      rw [hi]
      cases b <;> trivial
    · exact hb.step hm.threads hs hba
  | @call a p _ hc =>
    by_cases hba : b = a
    · subst hba
      simpa using queueCall_inCall hc
    · simpa [hba] using hb
  | @push e ok r hs =>
    by_cases hba : b = .ingest
    · subst hba
      cases hs <;> dsimp only <;> rw [pc_setPC]
      · rfl
      · trivial
    · exact InCall.other (q := m.monitor) (hsection rfl hba) hs hba
  | @pop out r hs =>
    by_cases hba : b = .publish
    · subst hba
      cases hs <;> dsimp only <;> rw [pc_setPC]
      · exact ⟨_, rfl⟩
      · trivial
    · exact InCall.other (q := m.monitor) (hsection rfl hba) hs hba
  | @shutdown r hs =>
    by_cases hba : b = .owner
    · subst hba
      cases hs
      dsimp only
      rw [pc_setPC]
      rfl
    · exact InCall.other (q := m.monitor) (hsection rfl hba) hs hba
  | @silent a act r hact hs =>
    by_cases hba : b = a
    · subst hba
      exact hb.silent hs hact
    · exact hb.other hs hba

theorem coherent_step (h : Step cfg m l n) (hm : Coherent m) : Coherent n := by
  refine ⟨?_, coherent_inCall h hm⟩
  cases hl : pipelineLabel l with
  | none =>
    rw [hidden_pipeline h hl]
    exact hm.threads
  | some b => exact threads_step (section_step h hm hl) hm.threads

theorem simulates_pipeline :
    Simulates (Step cfg) (IngestionPipeline.Step cfg) pipeline pipelineLabel Coherent where
  keeps hm h := coherent_step h hm
  visible hm h hl := section_step h hm hl
  hidden _ h hl := hidden_pipeline h hl

theorem simulates_monitor :
    Simulates (Step cfg) BoundedQueue.Step monitor monitorLabel Coherent where
  keeps hm h := coherent_step h hm
  visible := by
    rintro m ⟨a, o⟩ n b _ h hl
    cases o with
    | none => cases hl
    | some act =>
      cases hl
      exact monitor_step h
  hidden := by
    rintro m ⟨a, o⟩ n _ h hl
    cases h with
    | pipeline _ hc hs => simp [monitor, queue_of_no_call hs hc]
    | _ => cases hl

/-- No thread is inside the queue. -/
def Quiet (m : Machine α) : Prop := ∀ a, m.inside a = .idle

/-- The ingest thread, alone in the queue, runs `push()` through without a wait. -/
theorem Quiet.push {e : α} {ok : Bool} {q : BoundedQueue α} (hm : Quiet m)
    (hi : m.pipeline.ingest = .pushing e) (hc : m.pipeline.queue.canPush = true)
    (hp : m.pipeline.queue.push e = (ok, q)) :
    ∃ n, Reachable (Step cfg) m n ∧
      n.pipeline = { m.pipeline with ingest := afterPush ok, queue := q } ∧ Quiet n := by
  have h₁ : Reachable (Step cfg) m _ :=
    (Reachable.refl m).snoc (.call (p := .pushing e) (hm .ingest) (by simp only [queueCall, hi]))
  cases ok with
  | false =>
    have h₂ := h₁.snoc (.push (.pushFalse (Or.inl (by simp [monitor])) hc hp))
    refine ⟨_, h₂, rfl, fun a => ?_⟩
    cases a <;> simp [BoundedQueue.State.setPC, BoundedQueue.State.setQ, monitor, hm _]
  | true =>
    have h₂ := h₁.snoc (.push (.pushTrue (Or.inl (by simp [monitor])) hc hp))
    have h₃ := h₂.snoc (.silent rfl (.notifyNotEmptyLost (i := .ingest) (by simp [monitor,
      BoundedQueue.State.setPC]) fun j => by
        cases j <;> simp [BoundedQueue.State.setPC, BoundedQueue.State.setQ, monitor, hm _]))
    refine ⟨_, h₃, rfl, fun a => ?_⟩
    cases a <;> simp [BoundedQueue.State.setPC, BoundedQueue.State.setQ, monitor, hm _]

/-- The publish thread, alone in the queue, runs `pop()` through without a wait. -/
theorem Quiet.pop {out : Option α} {q : BoundedQueue α} (hm : Quiet m)
    (hi : m.pipeline.publish = .atPop) (hc : m.pipeline.queue.canPop = true)
    (hp : m.pipeline.queue.pop = (out, q)) :
    ∃ n, Reachable (Step cfg) m n ∧
      n.pipeline = { m.pipeline with publish := afterPop out, queue := q } ∧ Quiet n := by
  have h₁ : Reachable (Step cfg) m _ :=
    (Reachable.refl m).snoc (.call (p := .popping) (hm .publish) (by simp only [queueCall, hi]))
  cases out with
  | none =>
    have h₂ := h₁.snoc (.pop (.popFalse (Or.inl (by simp [monitor])) hc hp))
    refine ⟨_, h₂, rfl, fun a => ?_⟩
    cases a <;> simp [BoundedQueue.State.setPC, BoundedQueue.State.setQ, monitor, hm _]
  | some e =>
    have h₂ := h₁.snoc (.pop (.popTrue (Or.inl (by simp [monitor])) hc hp))
    have h₃ := h₂.snoc (.silent rfl (.notifyNotFullLost (i := .publish) (by simp [monitor,
      BoundedQueue.State.setPC]) fun j x => by
        cases j <;> simp [BoundedQueue.State.setPC, BoundedQueue.State.setQ, monitor, hm _]))
    refine ⟨_, h₃, rfl, fun a => ?_⟩
    cases a <;> simp [BoundedQueue.State.setPC, BoundedQueue.State.setQ, monitor, hm _]

theorem Quiet.shutdown (hm : Quiet m) (ho : m.pipeline.owner = .shutDownQueue) :
    ∃ n, Reachable (Step cfg) m n ∧
      n.pipeline = { m.pipeline with owner := .joinPublish, queue := m.pipeline.queue.shutdown } ∧
      Quiet n := by
  have h₁ : Reachable (Step cfg) m _ :=
    (Reachable.refl m).snoc (.call (p := .shuttingDown) (hm .owner) (by simp [queueCall, ho]))
  have h₂ := h₁.snoc (.shutdown (.shutdown (by simp [monitor])))
  have h₃ := h₂.snoc (.silent rfl (.notifyAllNotFull (i := .owner) (by simp [monitor,
    BoundedQueue.State.setPC])))
  have h₄ := h₃.snoc (.silent rfl (.notifyAllNotEmpty (i := .owner) (by simp [monitor,
    BoundedQueue.State.setPC])))
  refine ⟨_, h₄, rfl, fun a => ?_⟩
  cases a <;> simp [BoundedQueue.State.setPC, BoundedQueue.State.mapPC, BoundedQueue.State.setQ,
    monitor, hm _, BoundedQueue.wakeNotFull, BoundedQueue.wakeNotEmpty]

/-- Every action of the pipeline is a run of the machine between two quiet states. -/
theorem Quiet.step (hm : Quiet m) (h : IngestionPipeline.Step cfg m.pipeline a s) :
    ∃ n, Reachable (Step cfg) m n ∧ n.pipeline = s ∧ Quiet n := by
  cases hc : queueCall m.pipeline a with
  | none => exact ⟨_, (Reachable.refl m).snoc (.pipeline (hm a) hc h), rfl, hm⟩
  | some p =>
    cases h with
    | pushTrue hi hq hp | pushFalse hi hq hp => exact hm.push hi hq hp
    | popTrue hi hq hp | popFalse hi hq hp => exact hm.pop hi hq hp
    | shutDownQueue ho => exact hm.shutdown ho
    | _ => simp_all [queueCall]

theorem quiet_reachable
    (h : Reachable (IngestionPipeline.Step cfg) (IngestionPipeline.initial cfg script) s) :
    ∃ m, Reachable (Step cfg) (initial cfg script) m ∧ m.pipeline = s ∧ Quiet m := by
  refine h.invariant (P := fun s => ∃ m, Reachable (Step cfg) (initial cfg script) m ∧
    m.pipeline = s ∧ Quiet m) ⟨_, .refl _, rfl, fun _ => rfl⟩ ?_
  rintro s a t ⟨m, hr, rfl, hm⟩ hstep
  obtain ⟨n, hn, rfl, hq⟩ := hm.step hstep
  exact ⟨n, hr.trans hn, rfl, hq⟩

/-- The guards of the pipeline are the queue's waits: a run over the condition variables
is, action by action, one of the pipeline and one of the queue, and the pipeline has no
state that such a run does not reach. -/
theorem waits_refine_guards (cfg : Config α) (script : List Call) :
    (∀ xs m, Trace (Step cfg) (initial cfg script) xs m →
      Trace (IngestionPipeline.Step cfg) (IngestionPipeline.initial cfg script)
        (xs.filterMap pipelineLabel) m.pipeline ∧
      Trace BoundedQueue.Step (BoundedQueue.initial Thread cfg.capacity)
        (xs.filterMap monitorLabel) m.monitor) ∧
    ∀ s, Reachable (IngestionPipeline.Step cfg) (IngestionPipeline.initial cfg script) s ↔
      ∃ m, Reachable (Step cfg) (initial cfg script) m ∧ m.pipeline = s := by
  refine ⟨?_, fun s => ⟨?_, ?_⟩⟩
  · intro xs m h
    exact ⟨(simulates_pipeline.trace coherent_initial h).1,
      (simulates_monitor.trace coherent_initial h).1⟩
  · intro h
    obtain ⟨m, hr, hs, -⟩ := quiet_reachable h
    exact ⟨m, hr, hs⟩
  · rintro ⟨m, h, rfl⟩
    exact (simulates_pipeline.reachable coherent_initial h).1

end Machine
end TickForge.IngestionPipeline
