import TickForge.Services.Exit
import TickForge.Services.Startup

/-! The queue capacity, from the command line to the shutdown of the service. -/
namespace TickForge.IngestionService

open ByteString Transition Startup
open IngestionPipeline (Source Config Thread)

variable {α : Type*} {cfg : Config α} {s t : State α} {e : α}

/-- `main()` is still running. -/
def Alive (s : State α) : Prop := s.main ≠ .terminated ∧ ∀ line, s.main ≠ .returned line

theorem starting_moves (hm : s.main = .starting) (hph : Phase s)
    (hf : IngestionPipeline.Flow cfg s.pipeline) : ∃ a t, Step cfg s a t := by
  simp only [Phase, hm] at hph
  have hc := hf.control
  unfold IngestionPipeline.Control at hc
  obtain ⟨-, ⟨hscript, ho, -⟩ | ⟨-, -, hl⟩⟩ := hph
  · exact ⟨_, _, .start hm (.start ho hscript)⟩
  · cases ho : s.pipeline.owner with
    | launchIngest =>
      rw [ho] at hc
      exact ⟨_, _, .start hm (.launchIngest ho hc.2.ingestJoinable)⟩
    | launchPublish =>
      rw [ho] at hc
      exact ⟨_, _, .start hm (.launchPublish ho hc.publishJoinable)⟩
    | _ => simp [ho, IngestionPipeline.OwnerPC.launching] at hl

/-- With room for one event no state before the end of `main()` is stuck. -/
theorem alive_moves (hsrc : cfg.source.Obeys) (hcap : 1 ≤ cfg.capacity)
    (h : Reachable (Step cfg) (initial cfg) s) (ha : Alive s) : ∃ a t, Step cfg s a t := by
  have hb := books_reachable h
  have hexit : Requested s → ∃ a t, Step cfg s a t := by
    intro hr
    rcases exit_moves hsrc (by rw [capacity_reachable h]; exact hcap) hb (promised_reachable h) hr
      with ⟨line, hl⟩ | hmove
    · exact (ha.2 line hl).elim
    · exact hmove
  have hpoll : Polling s → ∃ a t, Step cfg s a t := by
    intro hp
    rcases main_moves hb.phase hp with hr | ⟨a, t, -, hstep⟩
    · exact hexit hr
    · exact ⟨a, t, hstep⟩
  have hph := hb.phase
  cases hm : s.main with
  | starting => exact starting_moves hm hph hb.flow
  | checkSignal | checkFinished | sleeping | stopping => exact hpoll (by simp [Polling, hm])
  | reading line | destroying line =>
    simp only [Phase, hm] at hph
    exact hexit ⟨by rw [hm]; rfl, hph.2.2.2.2.2⟩
  | returned line => exact (ha.2 line hm).elim
  | terminated => exact (ha.1 hm).elim

/-- The circular wait of the pipeline holds up `main()` as well. -/
theorem stuck_of_wait (hm : s.main = .stopping) (hsig : s.signalled = true)
    (hp : ∀ a p, ¬ IngestionPipeline.Step cfg s.pipeline a p)
    (hpub : s.pipeline.publish = .atPop) (hpoll : s.polling = none)
    (hfly : s.producer.inFlight = 0) : Stuck (Step cfg) s := by
  intro a t h
  cases h with
  | signal hn => simp [hsig] at hn
  | stop _ hstep | worker _ _ hstep => exact hp _ _ hstep
  | start h | signalSeen h | noSignal h | finishedSeen h | notFinished h | wake h | load h
    | print h | destroy h => simp [hm] at h
  | produce h | flush h => simp [hpub] at h
  | poll h => simp [hpoll, hpub] at h
  | publishReturn h => simp [hpoll] at h
  | report _ h => simp [hfly] at h

theorem wait_reachable (hcap : cfg.capacity = 0)
    (hy : cfg.source.mayReturn 0 false false (some e)) :
    ∃ s, Reachable (Step cfg) (initial cfg) s ∧ Alive s ∧ Stuck (Step cfg) s := by
  have h₁ : Reachable (Step cfg) (initial cfg) _ :=
    (Reachable.refl _).snoc (.start rfl (.start rfl rfl))
  have h₂ := h₁.snoc (.start rfl (.launchIngest rfl rfl))
  have h₃ := h₂.snoc (.start rfl (.launchPublish rfl rfl))
  have h₄ := h₃.snoc (.worker (by simp) (by simp) (.callNext rfl))
  have h₅ := h₄.snoc (.worker (by simp) (by simp) (.nextTrue (e := e) rfl hy))
  have h₆ := h₅.snoc (.worker (by simp) (by simp) (.countReceived rfl))
  have h₇ := h₆.snoc (.worker (by simp) (by simp) (.record rfl))
  have h₈ := h₇.snoc (.signal rfl)
  have h₉ := h₈.snoc (.signalSeen rfl rfl)
  have h₁₀ := h₉.snoc (.stop rfl (.requestStop rfl rfl))
  have h₁₁ := h₁₀.snoc (.stop rfl (.stop rfl rfl rfl))
  refine ⟨_, h₁₁, ⟨by simp [afterStop], by simp [afterStop]⟩, ?_⟩
  refine stuck_of_wait (by simp [afterStop]) rfl ?_ rfl rfl rfl
  refine IngestionPipeline.stuck_of_circular_wait rfl rfl rfl rfl ?_ rfl
  simp [IngestionPipeline.initial, initial, BoundedQueue.new, BoundedQueue.canPush, hcap]

/-- The pipeline of a command line. -/
def configure (o : Options) (source : Source α) (publishReturns : ℕ → Bool) : Config α :=
  ⟨o.queueCapacity, source, publishReturns, !o.recordPath.isEmpty⟩

/-- The last value of the capacity flag. -/
def lastCapacity (args : List Bytes) : Option Bytes :=
  ((given args).filter isCapacity).getLast?.map (·.2)

theorem lastCapacity_readable {args : List Bytes} {o : Options} {value : Bytes}
    (ho : parseArgs args = .ok o) (hv : lastCapacity args = some value) :
    stoul value = .ok o.queueCapacity := by
  obtain ⟨q, hq, rfl⟩ := Option.map_eq_some_iff.mp hv
  have hmem := List.mem_filter.mp (List.mem_of_getLast? hq)
  obtain ⟨n, hn⟩ := (parseArgs_ok_iff args).mp ⟨o, ho⟩ q hmem.1 hmem.2
  have hcap := queueCapacity_eq ho
  rw [hq] at hcap
  rw [hcap, hn]
  simp [capacityOf, hn, Except.toOption]

theorem queueCapacity_eq_zero_iff {args : List Bytes} {o : Options}
    (ho : parseArgs args = .ok o) :
    o.queueCapacity = 0 ↔
      ∃ value, lastCapacity args = some value ∧ ∃ r : Readable value, ∀ c ∈ r.digits, c = 48 := by
  constructor
  · intro hz
    cases hv : lastCapacity args with
    | none =>
      have hcap := queueCapacity_eq ho
      rw [Option.map_eq_none_iff.mp hv] at hcap
      simp [hz] at hcap
    | some value => exact ⟨value, rfl, stoul_eq_zero.mp (hz ▸ lastCapacity_readable ho hv)⟩
  · rintro ⟨value, hv, hr⟩
    have hread := lastCapacity_readable ho hv
    rw [stoul_eq_zero.mpr hr] at hread
    exact (Except.ok.inj hread).symm

/-- The service can get stuck before the end of `main()` exactly if the last capacity on its
command line is spelled with zeros only, whatever blanks, sign and other text go with them. -/
theorem service_hangs_iff {args : List Bytes} {o : Options} (ho : parseArgs args = .ok o)
    (source : Source α) (publishReturns : ℕ → Bool) (hsrc : source.Obeys)
    (hy : ∃ e, source.mayReturn 0 false false (some e)) :
    (∃ s, Reachable (Step (configure o source publishReturns))
      (initial (configure o source publishReturns)) s ∧ Alive s ∧
        Stuck (Step (configure o source publishReturns)) s) ↔
      ∃ value, lastCapacity args = some value ∧ ∃ r : Readable value, ∀ c ∈ r.digits, c = 48 := by
  rw [← queueCapacity_eq_zero_iff ho]
  constructor
  · rintro ⟨s, h, ha, hstuck⟩
    by_contra hne
    have hcap : 1 ≤ (configure o source publishReturns).capacity :=
      Nat.one_le_iff_ne_zero.mpr hne
    obtain ⟨a, t, hstep⟩ := alive_moves hsrc hcap h ha
    exact hstuck a t hstep
  · intro hz
    obtain ⟨e, he⟩ := hy
    exact wait_reachable hz he

/-- The second capacity is the one that counts, and a minus sign does not help. -/
theorem service_hangs_minus_zero :
    ∃ s : State ℕ, Alive s ∧ Stuck (Step ⟨0, .ofList [7], fun _ => true, false⟩) s := by
  have hargs : parseArgs [capacityFlag, utf8 "16", capacityFlag, utf8 " -00x"] =
      .ok { queueCapacity := 0 } := by decide
  obtain ⟨s, -, h⟩ := (service_hangs_iff hargs (.ofList [7]) (fun _ => true)
    (IngestionPipeline.Source.ofList_obeys [7]) ⟨7, Or.inl ⟨rfl, rfl⟩⟩).mpr
      ⟨utf8 " -00x", by decide,
        ⟨[32], [45], [48, 48], [120], by decide, by simp [isSpace], by decide,
          by simp [Binary64.isDigit], by decide, by simp [Binary64.isDigit]⟩, by simp⟩
  exact ⟨s, h⟩

end TickForge.IngestionService
