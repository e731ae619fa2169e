import TickForge.IngestionPipeline.Shutdown
import TickForge.Services.FinalStats

/-! From the signal to the return of `main()`. -/
namespace TickForge.IngestionService

open Transition
open IngestionPipeline (Config Thread Call destructor)

variable {α : Type*} {cfg : Config α} {s t : State α} {a : Actor} {line : List ℕ}

/-- `main()` has called `requestStop()`. -/
def Requested (s : State α) : Prop :=
  s.main.pastLoop = true ∧ s.pipeline.sourceStopped = true

/-- The result of `rd_kafka_producev` is what `publish()` returns. -/
def Promised (cfg : Config α) (s : State α) : Prop :=
  ∀ ok, s.polling = some ok → ok = cfg.publishReturns s.pipeline.results.length

theorem promised_step (h : Step cfg s a t) (hs : Promised cfg s) : Promised cfg t := by
  cases h with
  | start _ hp | stop _ hp | destroy _ hp =>
    intro ok hok
    rw [(owner_publish hp).1]
    exact hs ok hok
  | worker hb hn hp =>
    intro ok hok
    rw [(worker_publish hp hb hn).1]
    exact hs ok hok
  | produce =>
    intro ok hok
    exact (Option.some.inj hok).symm
  | publishReturn => rintro ok ⟨⟩
  | @flush p hi hp =>
    have hres : p.results = s.pipeline.results := by
      cases hp <;> simp_all
    intro ok hok
    rw [hres]
    exact hs ok hok
  | _ => exact hs

/-- What is left inside `publish()`: an accepted message still has its report to come. -/
def producerRank (p : IngestionPipeline.PublishPC α) (polling : Option Bool) : ℕ :=
  match p, polling with
  | .inPublish _, none => 4
  | .inPublish _, some _ => 1
  | _, _ => 0

def MainPC.rank : MainPC → ℕ
  | .stopping => 8
  | .reading line => 8 - line.length
  | _ => 0

/-- Actions left to every party once the source is stopped. -/
def exitRank (s : State α) : ℕ :=
  5 * IngestionPipeline.rank s.pipeline + producerRank s.pipeline.publish s.polling +
    2 * s.producer.inFlight + s.producer.reports.length + s.main.rank + (!s.signalled).toNat

theorem Phase.stopping (hs : Phase s) (hr : Requested s) :
    IngestionPipeline.Stopping s.pipeline := by
  obtain ⟨hpast, hsrc⟩ := hr
  unfold Phase at hs
  cases hm : s.main with
  | stopping =>
    rw [hm] at hs
    obtain ⟨-, -, ⟨hn, -⟩ | ⟨hscript, ho, -⟩ | ⟨hscript, ho, -⟩⟩ := hs
    · simp [hsrc] at hn
    · exact ⟨by simp [hscript, destructor], by simp [ho], by simp [ho], fun _ => hsrc⟩
    · refine ⟨by simp [hscript, destructor], ?_, ?_, fun _ => hsrc⟩ <;> rintro hl <;>
        simp [hl, IngestionPipeline.OwnerPC.stopping] at ho
  | reading =>
    rw [hm] at hs
    obtain ⟨-, -, -, ho, hscript, -⟩ := hs
    exact ⟨by simp [hscript, destructor], by simp [ho], by simp [ho], fun _ => hsrc⟩
  | destroying =>
    rw [hm] at hs
    obtain ⟨-, -, -, ho, hscript | hscript, -⟩ := hs
    · exact ⟨by simp [hscript, destructor], by simp [ho], by simp [ho], fun _ => hsrc⟩
    · exact ⟨by simp [hscript], by simp [ho], by simp [ho], fun _ => hsrc⟩
  | returned =>
    rw [hm] at hs
    obtain ⟨-, ho, hscript, -⟩ := hs
    exact ⟨by simp [hscript], by simp [ho], by simp [ho], fun _ => hsrc⟩
  | _ => simp [hm, MainPC.pastLoop] at hpast

theorem sourceStopped_step {p q : IngestionPipeline.State α} {b : Thread}
    (h : IngestionPipeline.Step cfg p b q) (hs : IngestionPipeline.Stopping p)
    (hsrc : p.sourceStopped = true) : q.sourceStopped = true := by
  cases h with
  | start _ hscript => exact (hs.noStart (by simp [hscript])).elim
  | requestStop => simp [hsrc]
  | _ => exact hsrc

/-- The destructor finds both threads joined. -/
theorem afterDestroy_pastLoop {p : IngestionPipeline.State α} (hm : s.main = .destroying line)
    (hs : Phase s) (h : IngestionPipeline.Step cfg s.pipeline .owner p) :
    (afterDestroy line p).pastLoop = true := by
  simp only [Phase, hm] at hs
  obtain ⟨-, hij, hpj, ho, -⟩ := hs
  have hj : p.ingestJoinable = false ∧ p.publishJoinable = false := by
    cases h with
    | launchIngest hl | launchPublish hl => simp [ho] at hl
    | joinIngest => exact ⟨rfl, hpj⟩
    | joinPublish => exact ⟨hij, rfl⟩
    | _ => exact ⟨hij, hpj⟩
  unfold afterDestroy
  split
  · simp [hj, MainPC.pastLoop]
  · rfl

theorem requested_step (h : Step cfg s a t) (hph : Phase s) (hr : Requested s) :
    Requested t := by
  have hst := hph.stopping hr
  obtain ⟨hpast, hsrc⟩ := hr
  refine ⟨?_, ?_⟩
  · cases h with
    | @start p hm => simp [hm, MainPC.pastLoop] at hpast
    | @stop p =>
      rcases afterStop_cases p with he | he <;> simp [he, MainPC.pastLoop]
    | destroy hm hp => exact afterDestroy_pastLoop hm hph hp
    | noSignal hm | notFinished hm | wake hm => simp [hm, MainPC.pastLoop] at hpast
    | signalSeen | finishedSeen | load | print => rfl
    | _ => exact hpast
  · cases hl : pipelineLabel a with
    | none => rwa [simulates_pipeline.hidden trivial h hl]
    | some b => exact sourceStopped_step (simulates_pipeline.visible trivial h hl) hst hsrc

/-- A worker's action enters `publish()` at most. -/
theorem producerRank_worker {p q : IngestionPipeline.State α} {b : Thread}
    (h : IngestionPipeline.Step cfg p b q) (hb : b ≠ .owner)
    (hn : b = .publish → inProducer p.publish = false) (polling : Option Bool) :
    producerRank q.publish polling ≤ producerRank p.publish polling + 4 := by
  cases h with
  | flush hi | publishReturn hi => simp [inProducer, hi] at hn
  | publish hi =>
    cases polling <;> simp [producerRank, hi]
  | popTrue hi | popFalse hi | countPublished hi | countFailure hi =>
    simp [producerRank, hi]
  | callNext | nextTrue | nextFalse | countReceived | record | pushTrue | pushFalse
    | finishIngest => exact Nat.le_add_right _ _
  | _ => exact (hb rfl).elim

theorem producerRank_owner {p q : IngestionPipeline.State α}
    (h : IngestionPipeline.Step cfg p .owner q) (polling : Option Bool) :
    producerRank q.publish polling ≤ producerRank p.publish polling := by
  cases h with
  | launchPublish => simp [producerRank]
  | _ => exact le_rfl

theorem producerRank_exit {p : IngestionPipeline.PublishPC α} (polling : Option Bool)
    (hp : ∀ e, p ≠ .inPublish e) : producerRank p polling = 0 := by
  cases p with
  | inPublish e => exact (hp e rfl).elim
  | _ => rfl

theorem length_poll {d : DeliveryReports} (h : d.reports ≠ []) :
    d.poll.inFlight = d.inFlight ∧ d.poll.reports.length < d.reports.length := by
  obtain ⟨b, rest, hr⟩ := List.exists_cons_of_ne_nil h
  cases b <;> simp [DeliveryReports.poll, hr, DeliveryReports.deliveryReportTrampoline]

theorem exitRank_step (hsrc : cfg.source.Obeys) (h : Step cfg s a t) (hb : Books cfg s)
    (hr : Requested s) : exitRank t < exitRank s := by
  have hst := hb.phase.stopping hr
  have hfall : ∀ {b q}, IngestionPipeline.Step cfg s.pipeline b q →
      IngestionPipeline.rank q < IngestionPipeline.rank s.pipeline :=
    fun hq => IngestionPipeline.rank_step hsrc hq hst
  unfold exitRank
  cases h with
  | signal hn =>
    simp [hn]
  | start hm | noSignal hm | notFinished hm | wake hm | signalSeen hm | finishedSeen hm =>
    have := hr.1
    simp [hm, MainPC.pastLoop] at this
  | @stop p hm hp =>
    have hlt := hfall hp
    have hle := producerRank_owner hp s.polling
    rcases afterStop_cases p with he | he <;> simp only [hm, he, MainPC.rank, List.length_nil] <;>
      omega
  | @destroy line p hm hp =>
    have hlt := hfall hp
    have hle := producerRank_owner hp s.polling
    rcases afterDestroy_cases line p with he | he | he <;> simp only [hm, he, MainPC.rank] <;>
      omega
  | @load line f hm hget =>
    have hlen : line.length < 7 := (List.getElem?_eq_some_iff.mp hget).1
    simp only [hm, MainPC.rank, List.length_append, List.length_singleton]
    omega
  | @print line hm hlen =>
    have hlen : line.length = 7 := hlen
    simp only [hm, MainPC.rank, hlen]
    omega
  | worker hb hn hp =>
    have hlt := hfall hp
    have hle := producerRank_worker hp hb hn s.polling
    dsimp only
    omega
  | @produce e hi hn =>
    have hle := Bool.toNat_le (cfg.publishReturns s.pipeline.results.length)
    simp only [hi, hn, producerRank, DeliveryReports.produce]
    omega
  | poll _ hne =>
    obtain ⟨hif, hlt⟩ := length_poll hne
    dsimp only
    omega
  | @publishReturn ok p hpoll hp hres =>
    have hlt := hfall hp
    have hzero : producerRank p.publish none = 0 := by
      apply producerRank_exit
      intro e he
      obtain ⟨e', he'⟩ := hb.accounted.polling (by simp [hpoll])
      cases hp <;> simp_all
    dsimp only
    omega
  | @flush p hi hp =>
    have hlt := hfall hp
    have hzero : producerRank p.publish s.polling = 0 := by
      apply producerRank_exit
      intro e he
      cases hp <;> simp_all
    dsimp only
    omega
  | report b hpos =>
    simp only [DeliveryReports.report, List.length_append, List.length_singleton]
    omega

/-- Inside `stop()` an action of the pipeline is one of the service, or the producer's. -/
theorem stopping_moves {p : IngestionPipeline.State α} {b : Thread} (hm : s.main = .stopping)
    (hp : Promised cfg s) (h : IngestionPipeline.Step cfg s.pipeline b p) :
    ∃ a t, Step cfg s a t := by
  by_cases hb : b = .owner
  · subst hb
    exact ⟨_, _, .stop hm h⟩
  by_cases hn : b = .publish → inProducer s.pipeline.publish = false
  · exact ⟨_, _, .worker hb hn h⟩
  · simp only [Classical.not_imp, Bool.not_eq_false] at hn
    obtain ⟨rfl, hin⟩ := hn
    cases hi : s.pipeline.publish with
    | flushing => exact ⟨_, _, .flush hi (.flush hi)⟩
    | inPublish e =>
      cases hpoll : s.polling with
      | none => exact ⟨_, _, .produce hi hpoll⟩
      | some ok =>
        have hok := hp ok hpoll
        subst hok
        exact ⟨_, _, .publishReturn hpoll (.publishReturn hi) rfl⟩
    | _ => simp [hi, inProducer] at hin

theorem exit_moves (hsrc : cfg.source.Obeys) (hcap : 1 ≤ s.pipeline.queue.capacity)
    (hb : Books cfg s) (hp : Promised cfg s) (hr : Requested s) :
    (∃ line, s.main = .returned line) ∨ ∃ a t, Step cfg s a t := by
  have hph := hb.phase
  unfold Phase at hph
  cases hm : s.main with
  | returned line => exact Or.inl ⟨line, rfl⟩
  | stopping =>
    right
    rw [hm] at hph
    have hn : ¬ IngestionPipeline.Returned s.pipeline := by
      rintro ⟨ho, hscript⟩
      obtain ⟨-, -, ⟨-, hs, -⟩ | ⟨hs, -⟩ | ⟨hs, -⟩⟩ := hph <;> simp [hscript, calls, destructor] at hs
    rcases IngestionPipeline.returned_or_moves hsrc hcap hb.flow with h | ⟨b, p, h⟩
    · exact (hn h).elim
    · exact stopping_moves hm hp h
  | reading line =>
    right
    by_cases hlen : line.length = (finalLoads (α := α)).length
    · exact ⟨_, _, .print hm hlen⟩
    · have hle : line.length ≤ (finalLoads (α := α)).length := by
        have hline := hb.line
        simp only [Line, hm] at hline
        rw [hline, List.length_map, List.length_take]
        exact Nat.min_le_right _ _
      have hlt : line.length < (finalLoads (α := α)).length := by omega
      exact ⟨_, _, .load hm (List.getElem?_eq_getElem hlt)⟩
  | destroying line =>
    right
    rw [hm] at hph
    obtain ⟨hsp, -, -, ho, hscript | hscript, -⟩ := hph
    · exact ⟨_, _, .destroy hm (.requestStop ho hscript)⟩
    · exact ⟨_, _, .destroy hm (.stopIdle ho hscript (by simp [hsp]))⟩
  | _ => simp [Requested, hm, MainPC.pastLoop] at hr

/-- An action of `main()`, in its own code or in a call of the pipeline. -/
def Actor.isMain : Actor → Bool
  | .main | .pipeline .owner => true
  | _ => false

/-- How many actions `main()` takes at most from its poll loop to `requestStop()`, once
the signal is seen or the source has ended. -/
def pollRank (signalled : Bool) : MainPC → ℕ
  | .stopping => 1
  | .checkFinished => 4
  | .checkSignal => if signalled then 2 else 5
  | .sleeping => if signalled then 3 else 6
  | _ => 0

theorem pollRank_le (b : Bool) (m : MainPC) : pollRank b m ≤ 6 := by
  cases m <;> cases b <;> simp [pollRank]

/-- `main()` is in its loop or has just left it. -/
def Polling (s : State α) : Prop :=
  s.main = .checkSignal ∨ s.main = .checkFinished ∨ s.main = .sleeping ∨ s.main = .stopping

theorem ingestFinished_step {p q : IngestionPipeline.State α} {b : Thread}
    (h : IngestionPipeline.Step cfg p b q) (hf : p.ingestFinished = true) :
    q.ingestFinished = true := by
  cases h with
  | finishIngest => rfl
  | _ => exact hf

/-- Right after the loop `main()` is about to call `requestStop()`. -/
theorem Phase.requestStop (hs : Phase s) (hm : s.main = .stopping) :
    Requested s ∨ (s.pipeline.script = calls.tail ∧ s.pipeline.owner = .idle ∧
      s.pipeline.started = true) := by
  simp only [Phase, hm] at hs
  obtain ⟨hst, -, ⟨-, hscript, ho⟩ | ⟨-, -, hsrc⟩ | ⟨-, -, hsrc⟩⟩ := hs
  · exact Or.inr ⟨hscript, ho, hst⟩
  · exact Or.inl ⟨by rw [hm]; rfl, hsrc⟩
  · exact Or.inl ⟨by rw [hm]; rfl, hsrc⟩

/-- Each action of `main()` brings it closer to `requestStop()`, whatever the others do. -/
theorem poll_step (h : Step cfg s a t) (hph : Phase s) (hm : Polling s)
    (hdue : s.signalled = true ∨ s.pipeline.ingestFinished = true) :
    Requested t ∨ (Polling t ∧ (t.signalled = true ∨ t.pipeline.ingestFinished = true) ∧
      a.isMain.toNat + pollRank t.signalled t.main ≤ pollRank s.signalled s.main) := by
  cases h with
  | signal hn =>
    refine Or.inr ⟨hm, Or.inl rfl, ?_⟩
    rcases hm with hm | hm | hm | hm <;> simp [hm, hn, pollRank, Actor.isMain]
  | signalSeen hc hsig =>
    exact Or.inr ⟨by simp [Polling], Or.inl hsig, by simp [hc, hsig, pollRank, Actor.isMain]⟩
  | noSignal hc hn =>
    exact Or.inr ⟨by simp [Polling], hdue, by simp [hc, hn, pollRank, Actor.isMain]⟩
  | finishedSeen hc =>
    exact Or.inr ⟨by simp [Polling], hdue, by simp [hc, pollRank, Actor.isMain]⟩
  | notFinished hc hn =>
    have hsig : s.signalled = true := by simpa [hn] using hdue
    exact Or.inr ⟨by simp [Polling], hdue, by simp [hc, hsig, pollRank, Actor.isMain]⟩
  | wake hc =>
    refine Or.inr ⟨by simp [Polling], hdue, ?_⟩
    cases hsig : s.signalled <;> simp [hc, pollRank, Actor.isMain]
  | @stop p hc hp =>
    left
    rcases hph.requestStop hc with hr | ⟨hscript, ho, hst⟩
    · exact requested_step (.stop hc hp) hph hr
    · refine ⟨by rcases afterStop_cases p with he | he <;> simp [he, MainPC.pastLoop], ?_⟩
      cases hp <;> simp_all [calls]
  | start hc | load hc | print hc | destroy hc => simp [Polling, hc] at hm
  | @worker b p hb _ hp =>
    refine Or.inr ⟨hm, hdue.imp_right (ingestFinished_step hp), ?_⟩
    cases b <;> simp_all [Actor.isMain]
  | publishReturn _ hp | flush _ hp =>
    exact Or.inr ⟨hm, hdue.imp_right (ingestFinished_step hp), by simp [Actor.isMain]⟩
  | produce | poll | report => exact Or.inr ⟨hm, hdue, by simp [Actor.isMain]⟩

theorem main_moves (hph : Phase s) (hm : Polling s) :
    Requested s ∨ ∃ a t, a.isMain = true ∧ Step cfg s a t := by
  rcases hm with hm | hm | hm | hm
  · cases hsig : s.signalled with
    | true => exact Or.inr ⟨_, _, rfl, .signalSeen hm hsig⟩
    | false => exact Or.inr ⟨_, _, rfl, .noSignal hm hsig⟩
  · cases hfin : s.pipeline.ingestFinished with
    | true => exact Or.inr ⟨_, _, rfl, .finishedSeen hm hfin⟩
    | false => exact Or.inr ⟨_, _, rfl, .notFinished hm hfin⟩
  · exact Or.inr ⟨_, _, rfl, .wake hm⟩
  · rcases hph.requestStop hm with hr | ⟨hscript, ho, -⟩
    · exact Or.inl hr
    · exact Or.inr ⟨_, _, rfl, .stop hm (.requestStop ho hscript)⟩

theorem capacity_reachable (h : Reachable (Step cfg) (initial cfg) s) :
    s.pipeline.queue.capacity = cfg.capacity :=
  (IngestionPipeline.queue_bounded (pipeline_reachable h)).capacity

theorem promised_reachable (h : Reachable (Step cfg) (initial cfg) s) : Promised cfg s :=
  h.invariant (by rintro ok ⟨⟩) fun hs hstep => promised_step hstep hs

theorem polled_trace {xs : List Actor} (h : Reachable (Step cfg) (initial cfg) s)
    (hm : Polling s) (hdue : s.signalled = true ∨ s.pipeline.ingestFinished = true)
    (ht : Trace (Step cfg) s xs t) :
    Requested t ∨ (Polling t ∧ (t.signalled = true ∨ t.pipeline.ingestFinished = true) ∧
      xs.countP Actor.isMain + pollRank t.signalled t.main ≤ pollRank s.signalled s.main) := by
  induction ht with
  | refl => exact Or.inr ⟨hm, hdue, by simp⟩
  | @snoc t u xs a htr hstep ih =>
    have hb : Books cfg t := books_reachable (h.trans ⟨_, htr⟩)
    rcases ih with hr | ⟨hpt, hdt, hle⟩
    · exact Or.inl (requested_step hstep hb.phase hr)
    · rcases poll_step hstep hb.phase hpt hdt with hr | ⟨hpu, hdu, hlt⟩
      · exact Or.inl hr
      · refine Or.inr ⟨hpu, hdu, ?_⟩
        rw [List.countP_append]
        have hone : [a].countP Actor.isMain = a.isMain.toNat := by
          cases hi : a.isMain <;> simp [hi]
        omega

theorem Polling.pollRank_pos (hm : Polling s) : 1 ≤ pollRank s.signalled s.main := by
  rcases hm with hm | hm | hm | hm <;> cases hs : s.signalled <;> simp [hm, pollRank]

/-- With room for one event the service always shuts down: in its loop `main()` is never
blocked, and once it has been signalled, or the source has ended, it calls `requestStop()`
within six of its own actions; from then on no party can be blocked and `main()` returns
within a number of actions that the state bounds. -/
theorem service_exits (cfg : Config α) (hsrc : cfg.source.Obeys) (hcap : 1 ≤ cfg.capacity)
    {s : State α} (h : Reachable (Step cfg) (initial cfg) s) :
    (Polling s → Requested s ∨ ∃ a t, a.isMain = true ∧ Step cfg s a t) ∧
    (Polling s → s.signalled = true ∨ s.pipeline.ingestFinished = true →
      ∀ xs t, Trace (Step cfg) s xs t → 6 ≤ xs.countP Actor.isMain → Requested t) ∧
    (Requested s →
      Within (Step cfg) (fun t => ∃ line, t.main = .returned line) (exitRank s) s) := by
  refine ⟨main_moves (books_reachable h).phase, ?_, ?_⟩
  · intro hm hdue xs t ht hlen
    rcases polled_trace h hm hdue ht with hr | ⟨hpt, -, hle⟩
    · exact hr
    · have hpos := hpt.pollRank_pos
      have hmax := pollRank_le s.signalled s.main
      omega
  · intro hr
    refine within_of_rank (I := fun t => Reachable (Step cfg) (initial cfg) t ∧ Requested t)
      exitRank ?_ ?_ ?_ ⟨h, hr⟩ le_rfl
    · rintro t a u ⟨ht, hreq⟩ hstep
      exact ⟨ht.snoc hstep, requested_step hstep (books_reachable ht).phase hreq⟩
    · rintro t a u ⟨ht, hreq⟩ hstep
      exact exitRank_step hsrc hstep (books_reachable ht) hreq
    · rintro t ⟨ht, hreq⟩
      exact exit_moves hsrc (by rw [capacity_reachable ht]; exact hcap) (books_reachable ht)
        (promised_reachable ht) hreq

/-- A run of a source without events, up to the signal and the call of `requestStop()`. -/
theorem service_exits_signalled :
    ∃ s : State ℕ, Requested s ∧
      Within (Step ⟨1, .ofList [], fun _ => true, false⟩)
        (fun t => ∃ line, t.main = .returned line) (exitRank s) s := by
  have h₁ : Reachable (Step ⟨1, .ofList [], fun _ => true, false⟩)
      (initial ⟨1, .ofList [], fun _ => true, false⟩ : State ℕ) _ :=
    (Reachable.refl _).snoc (.start rfl (.start rfl rfl))
  have h₂ := h₁.snoc (.start rfl (.launchIngest rfl rfl))
  have h₃ := h₂.snoc (.start rfl (.launchPublish rfl rfl))
  have h₄ := h₃.snoc (.signal rfl)
  have h₅ := h₄.snoc (.signalSeen rfl rfl)
  have h₆ := h₅.snoc (.stop rfl (.requestStop rfl rfl))
  exact ⟨_, ⟨rfl, rfl⟩, (service_exits _ (IngestionPipeline.Source.ofList_obeys [])
    le_rfl h₆).2.2 ⟨rfl, rfl⟩⟩

end TickForge.IngestionService
