import TickForge.IngestionPipeline.Conservation

/-! Which events a run has yielded so far, and which of them were published. -/
namespace TickForge.IngestionPipeline

open Transition

variable {α : Type*} {cfg : Config α} {s t : State α} {a : Thread} {script : List Call}
  {events : List α}

/-- The `k`-th call delivers the `k`-th event, and one that nobody stops fails only behind
the last. -/
structure Source.Follows (src : Source α) (events : List α) : Prop where
  delivers : ∀ {k late now e}, src.mayReturn k late now (some e) → events[k]? = some e
  ends : ∀ {k late}, src.mayReturn k late false none → events[k]? = none

/-- The ingest thread has not left its loop. -/
def IngestPC.looping : IngestPC α → Bool
  | .exiting | .done => false
  | _ => true

structure Sequenced (events : List α) (s : State α) : Prop where
  calls : s.ingest.looping = true → s.nextCalls = s.yielded.length
  yielded : s.yielded <+: events
  exhausted : s.exhausted = true → s.yielded = events

theorem sequenced_step (hsrc : cfg.source.Follows events) (h : Step cfg s a t) (hc : Control s)
    (hs : Sequenced events s) : Sequenced events t := by
  obtain ⟨hcalls, hpre, hex⟩ := hs
  cases h with
  | @nextTrue late e hi hr =>
    have hnext := hsrc.delivers hr
    rw [hcalls (by rw [hi]; rfl)] at hnext
    refine ⟨fun _ => ?_, ?_, ?_⟩
    · simp [hcalls (by rw [hi]; rfl)]
    · obtain ⟨rest, rfl⟩ := hpre
      rw [List.getElem?_append_right (Nat.le_refl _), Nat.sub_self] at hnext
      cases rest with
      | nil => simp at hnext
      | cons d rest =>
        obtain rfl : d = e := by simpa using hnext
        exact ⟨rest, by simp⟩
    · intro hx
      rw [hex hx] at hnext
      simp at hnext
  | @nextFalse late hi hr =>
    refine ⟨by simp [IngestPC.looping], hpre, ?_⟩
    intro hx
    have hstop : s.sourceStopped = false := by simpa using hx
    rw [hstop] at hr
    have hnone := hsrc.ends hr
    rw [hcalls (by rw [hi]; rfl), List.getElem?_eq_none_iff] at hnone
    exact hpre.eq_of_length_le hnone
  | launchIngest ho _ =>
    exact ⟨fun _ => hcalls (by rw [hc.ingest_notStarted ho]; rfl), hpre, hex⟩
  | callNext hi | countReceived hi | record hi | pushTrue hi _ _ =>
    exact ⟨fun _ => hcalls (by rw [hi]; rfl), hpre, hex⟩
  | pushFalse hi _ _ | finishIngest hi =>
    exact ⟨by simp [IngestPC.looping], hpre, hex⟩
  | _ => exact ⟨hcalls, hpre, hex⟩

theorem sequenced_reachable (hsrc : cfg.source.Follows events) (ho : OneStart script)
    (h : Reachable (Step cfg) (initial cfg script) s) : Sequenced events s := by
  refine (h.invariant (P := fun s => Flow cfg s ∧ Sequenced events s)
    ⟨flow_initial ho, ⟨fun _ => rfl, by simp [initial], by simp [initial]⟩⟩ ?_).2
  intro s a t hs hstep
  exact ⟨flow_step hstep hs.1, sequenced_step hsrc hstep hs.1.control hs.2⟩

/-- Every event of a run was returned by some call of `next()`. -/
theorem yielded_returned (h : Reachable (Step cfg) (initial cfg script) s) :
    ∀ e ∈ s.yielded, ∃ k late now, cfg.source.mayReturn k late now (some e) := by
  refine h.invariant (P := fun s => ∀ e ∈ s.yielded, ∃ k late now,
    cfg.source.mayReturn k late now (some e)) (by simp [initial]) ?_
  intro s a t hs hstep
  cases hstep with
  | nextTrue _ hr =>
    intro e he
    rcases List.mem_append.mp he with he | he
    · exact hs e he
    · obtain rfl := List.mem_singleton.mp he
      exact ⟨_, _, _, hr⟩
  | _ => exact hs

/-- A source that has ended by itself has returned false without a stop request. -/
theorem exhausted_returned (h : Reachable (Step cfg) (initial cfg script) s)
    (hx : s.exhausted = true) : ∃ k late, cfg.source.mayReturn k late false none := by
  refine h.invariant (P := fun s => s.exhausted = true →
    ∃ k late, cfg.source.mayReturn k late false none) (by simp [initial]) ?_ hx
  intro s a t hs hstep
  cases hstep with
  | nextFalse _ hr =>
    intro hx
    have hstop : s.sourceStopped = false := by simpa using hx
    exact ⟨_, _, hstop ▸ hr⟩
  | _ => exact hs

/-- The source's events whose `publish()` call has returned true. -/
def published (s : State α) : List α := ((s.yielded.zip s.results).filter (·.2)).map (·.1)

/-- A `publish()` call in progress is about the event that was handed over last. -/
def Offered (s : State α) : Prop := ∀ e, s.publish = .inPublish e → ∃ before, s.handed = before ++ [e]

theorem offered_step (h : Step cfg s a t) (hs : Offered s) : Offered t := by
  intro e he
  cases h with
  | publish hi =>
    obtain rfl := PublishPC.inPublish.inj he
    exact ⟨_, rfl⟩
  | launchPublish | popTrue | popFalse | publishReturn | countPublished | countFailure | flush =>
    simp at he
  | _ => exact hs e he

theorem Flow.handed_prefix (hs : Flow cfg s) : s.handed <+: s.yielded := by
  have := hs.placed
  rw [Placed, List.append_assoc, List.append_assoc] at this
  exact ⟨_, this.symm⟩

theorem Flow.results_length (hs : Flow cfg s) : s.results.length ≤ s.yielded.length := by
  have hle := hs.handed_prefix.length_le
  have := hs.counted.returned
  omega

theorem zip_append_of_le {β : Type*} {xs ys : List α} {bs : List β} (h : bs.length ≤ xs.length) :
    (xs ++ ys).zip bs = xs.zip bs := by
  induction xs generalizing bs with
  | nil => simp [List.length_eq_zero_iff.mp (Nat.le_zero.mp h)]
  | cons x xs ih =>
    cases bs with
    | nil => rfl
    | cons b bs => simp [ih (by simpa using h)]

theorem zip_concat {β : Type*} {xs : List α} {bs : List β} {x : α} {b : β}
    (h : xs[bs.length]? = some x) : xs.zip (bs ++ [b]) = xs.zip bs ++ [(x, b)] := by
  induction bs generalizing xs with
  | nil =>
    cases xs with
    | nil => simp at h
    | cons y xs =>
      obtain rfl : y = x := by simpa using h
      simp
  | cons c bs ih =>
    cases xs with
    | nil => simp at h
    | cons y xs => simp [ih (by simpa using h)]

/-- Only a returning `publish()` call changes the published events, by its own event. -/
theorem published_step (h : Step cfg s a t) (hf : Flow cfg s) (ho : Offered s) :
    (t.results = s.results ∧ published t = published s) ∨
    ∃ e ok, s.publish = .inPublish e ∧ t.results = s.results ++ [ok] ∧
      published t = published s ++ if ok then [e] else [] := by
  cases h with
  | @publishReturn e hi =>
    obtain ⟨before, hb⟩ := ho e hi
    have hret := hf.counted.returned
    have hpend : s.publish.pending = 1 := by rw [hi]; rfl
    rw [hb, hpend, List.length_append, List.length_singleton] at hret
    have hget : s.yielded[s.results.length]? = some e := by
      obtain ⟨rest, hrest⟩ := hf.handed_prefix
      rw [← hrest, hb, show s.results.length = before.length by omega]
      simp
    refine Or.inr ⟨e, cfg.publishReturns s.results.length, hi, rfl, ?_⟩
    simp only [published, zip_concat hget, List.filter_append, List.map_append]
    cases cfg.publishReturns s.results.length <;> simp
  | @nextTrue late e hi hr =>
    exact Or.inl ⟨rfl, by simp only [published, zip_append_of_le hf.results_length]⟩
  | _ => exact Or.inl ⟨rfl, rfl⟩

/-- One slot, a recorder, and a publisher that takes everything. -/
def oneSlot (src : Source α) : Config α := ⟨1, src, fun _ => true, true⟩

/-- Between two calls of `next()`, with no event on its way. -/
def between (before : List α) (calls highWater : ℕ) (results : List Bool) : State α where
  script := [.stop]
  owner := .idle
  ingest := .atNext
  publish := .atPop
  ingestJoinable := true
  publishJoinable := true
  queue := ⟨1, [], highWater, false⟩
  started := true
  stopped := false
  eventsReceived := calls
  eventsPublished := calls
  publishFailures := 0
  ingestFinished := false
  sourceStopped := false
  exhausted := false
  nextCalls := calls
  yielded := before
  recorded := before
  handed := before
  results := results
  flushed := false

variable {src : Source α}

theorem between_step {before : List α} {n : ℕ} {e : α} (w : ℕ) (rs : List Bool)
    (h : src.mayReturn n false false (some e)) :
    Reachable (Step (oneSlot src)) (between before n w rs)
      (between (before ++ [e]) (n + 1) (if 1 > w then 1 else w) (rs ++ [true])) := by
  have h₁ := (Reachable.refl (between before n w rs)).snoc
    (show Step (oneSlot src) _ .ingest _ from .callNext rfl)
  have h₂ := h₁.snoc (.nextTrue rfl h)
  have h₃ := h₂.snoc (.countReceived rfl)
  have h₄ := h₃.snoc (.record rfl)
  have h₅ := h₄.snoc (.pushTrue rfl rfl rfl)
  have h₆ := h₅.snoc (.popTrue rfl rfl rfl)
  have h₇ := h₆.snoc (.publish rfl)
  have h₈ := h₇.snoc (.publishReturn rfl)
  exact h₈.snoc (.countPublished rfl)

theorem between_reachable
    (hsrc : ∀ k ≤ events.length, src.mayReturn k false false events[k]?) :
    ∃ w rs, Reachable (Step (oneSlot src)) (initial (oneSlot src) [.start, .stop])
      (between events events.length w rs) := by
  have h₁ : Reachable (Step (oneSlot src)) (initial (oneSlot src) [.start, .stop]) _ :=
    (Reachable.refl _).snoc (.start rfl rfl)
  have h₂ := h₁.snoc (.launchIngest rfl rfl)
  have h₃ := h₂.snoc (.launchPublish rfl rfl)
  have hall : ∃ t, Reachable (Step (oneSlot src)) (between [] 0 0 []) t ∧
      ∃ w rs, t = between events events.length w rs := by
    refine Reachable.through (P := fun before t => ∃ w rs, t = between before before.length w rs)
      ?_ ⟨0, [], rfl⟩
    rintro before e after _ rfl ⟨w, rs, rfl⟩
    have hnext := hsrc before.length (by simp)
    refine ⟨_, between_step w rs (by simpa using hnext), if 1 > w then 1 else w, rs ++ [true], ?_⟩
    rw [List.length_append, List.length_singleton]
  obtain ⟨t, ht, w, rs, rfl⟩ := hall
  exact ⟨w, rs, h₃.trans ht⟩

/-- A source that nobody stops can be run to its end. -/
theorem whole_run (hsrc : ∀ k ≤ events.length, src.mayReturn k false false events[k]?) :
    ∃ s, Reachable (Step (oneSlot src)) (initial (oneSlot src) [.start, .stop]) s ∧
      s.stopped = true ∧ s.exhausted = true ∧ s.yielded = events ∧ s.recorded = events ∧
      s.handed = events := by
  obtain ⟨w, rs, h⟩ := between_reachable hsrc
  have hend := hsrc events.length (Nat.le_refl _)
  rw [List.getElem?_eq_none (Nat.le_refl _)] at hend
  have h₁ := h.snoc (.callNext rfl)
  have h₂ := h₁.snoc (.nextFalse rfl hend)
  have h₃ := h₂.snoc (.finishIngest rfl)
  have h₄ := h₃.snoc (.stop rfl rfl rfl)
  have h₅ := h₄.snoc (.joinIngest rfl fun _ => rfl)
  have h₆ := h₅.snoc (.shutDownQueue rfl)
  have h₇ := h₆.snoc (.popFalse rfl rfl rfl)
  have h₈ := h₇.snoc (.flush rfl)
  have h₉ := h₈.snoc (.joinPublish rfl fun _ => rfl)
  exact ⟨_, h₉, rfl, rfl, rfl, rfl, rfl⟩

end TickForge.IngestionPipeline
