import TickForge.IngestionPipeline.Restart

/-! What the destructor finds after any sequence of calls. -/
namespace TickForge.IngestionPipeline

open Transition BoundedQueue

variable {α : Type*} {cfg : Config α} {s t : State α} {a : Thread} {script rest : List Call}

/-- What `~IngestionPipeline()` calls before the members are destroyed. -/
def destructor : List Call := [.requestStop, .stop]

/-- A `std::thread` member is joinable when it is destroyed: `std::terminate`. -/
def Terminates (s : State α) : Prop :=
  Returned s ∧ (s.ingestJoinable = true ∨ s.publishJoinable = true)

/-- The owner's next action is to call `start()`. -/
def CallsStart (s : State α) : Prop := s.owner = .idle ∧ s.script.head? = some .start

/-- A step of a pipeline whose owner does not call `start()` over unjoined threads. -/
def Disciplined (cfg : Config α) (s : State α) (a : Thread) (t : State α) : Prop :=
  Step cfg s a t ∧
    (a = .owner → CallsStart s → s.ingestJoinable = false ∧ s.publishJoinable = false)

/-- The `start()` called here gets past `source_->start()`. -/
def Starts (s : State α) (a : Thread) (t : State α) : Prop :=
  a = .owner ∧ CallsStart s ∧ t.owner = .launchIngest

/-- Besides, no `start()` succeeds once a `stop()` has joined the threads. -/
def WithoutRestart (cfg : Config α) (s : State α) (a : Thread) (t : State α) : Prop :=
  Disciplined cfg s a t ∧ (Starts s a t → s.stopped = false)

/-- Either `stop()` is still to come, or it has seen to the threads that were started. -/
def Ending (s : State α) : Prop :=
  s.script.getLast? = some .stop ∨
    (s.script = [] ∧ (s.owner.stopping = true ∨ s.stopped = true ∨ s.started = false))

/-- After the only `stop()` that joins, no thread is left to join. -/
structure Latched (s : State α) : Prop where
  launching : s.stopped = true → s.owner.launching = false
  ingest : s.stopped = true → s.ingestJoinable = false
  publish : s.stopped = true → s.publishJoinable = false

theorem ending_initial (calls : List Call) : Ending (initial cfg (calls ++ destructor)) := by
  left
  simp [initial, destructor]

theorem ending_rest {c : Call} (hs : (c :: rest).getLast? = some .stop) (hc : c ≠ .stop) :
    rest.getLast? = some .stop := by
  cases rest with
  | nil => simp_all
  | cons d rest => simpa using hs

theorem ending_step (h : Step cfg s a t) (hs : Ending s) : Ending t := by
  by_cases ha : a = .owner
  · subst ha
    rcases hs with hlast | ⟨hnil, hs⟩
    · cases h with
      | startThrows _ hscript | start _ hscript | requestStop _ hscript =>
        exact Or.inl (ending_rest (hscript ▸ hlast) (by simp))
      | @stopIdle rest _ hscript hn =>
        rw [hscript] at hlast
        cases rest with
        | nil => exact Or.inr ⟨rfl, Or.inr (by simpa using hn)⟩
        | cons d rest => exact Or.inl (by simpa using hlast)
      | @stop rest _ hscript hn =>
        rw [hscript] at hlast
        cases rest with
        | nil => exact Or.inr ⟨rfl, Or.inl rfl⟩
        | cons d rest => exact Or.inl (by simpa using hlast)
      | _ => exact Or.inl hlast
    · right
      cases h <;> simp_all [OwnerPC.stopping]
  · obtain ⟨ho, hscript, hst, hsp, -⟩ := worker_frame h ha
    unfold Ending
    rwa [ho, hscript, hst, hsp]

theorem latched_step (h : WithoutRestart cfg s a t) (ht : Threads s) (hs : Latched s) :
    Latched t := by
  obtain ⟨⟨hstep, -⟩, hn⟩ := h
  by_cases ha : a = .owner
  · subst ha
    obtain ⟨hl, hi, hp⟩ := hs
    cases hstep with
    | start ho hscript =>
      have hst := hn ⟨rfl, ⟨ho, by simp [hscript]⟩, rfl⟩
      constructor <;> simp [hst]
    | launchIngest ho _ | launchPublish ho _ =>
      have hst : s.stopped = false := by
        cases hb : s.stopped with
        | false => rfl
        | true => simpa [ho, OwnerPC.launching] using hl hb
      constructor <;> simp [hst]
    | joinPublish ho _ =>
      have hj := ht.closing (by simp [ho, OwnerPC.closing])
      exact ⟨fun _ => rfl, fun _ => hj, fun _ => rfl⟩
    | startThrows ho | requestStop ho | stopIdle ho => exact ⟨hl, hi, hp⟩
    | stop | joinIngest | shutDownQueue => exact ⟨fun _ => rfl, by simp_all, hp⟩
  · obtain ⟨ho, -, -, hsp, hij, hpj, -⟩ := worker_frame hstep ha
    constructor
    · rw [ho, hsp]; exact hs.launching
    · rw [hsp, hij]; exact hs.ingest
    · rw [hsp, hpj]; exact hs.publish

theorem joined_reachable {calls : List Call}
    (h : Reachable (WithoutRestart cfg) (initial cfg (calls ++ destructor)) s) :
    Threads s ∧ Ending s ∧ Latched s := by
  refine h.invariant (P := fun s => Threads s ∧ Ending s ∧ Latched s)
    ⟨threads_initial, ending_initial calls, by constructor <;> simp [initial]⟩ ?_
  rintro t a u ⟨ht, he, hl⟩ hs
  exact ⟨threads_step hs.1.1 ht, ending_step hs.1.1 he, latched_step hs ht hl⟩

theorem not_terminates (ht : Threads s) (he : Ending s) (hl : Latched s) : ¬ Terminates s := by
  rintro ⟨⟨ho, hscript⟩, hj⟩
  rcases he with hlast | ⟨-, hs | hs | hs⟩
  · simp [hscript] at hlast
  · simp [ho, OwnerPC.stopping] at hs
  · simp [hl.ingest hs, hl.publish hs] at hj
  · simp [ht.unstarted hs] at hj

/-- From a restart on: `stop()` returns at its guard, and the new thread stays unjoined. -/
structure Unjoined (s : State α) : Prop where
  stopped : s.stopped = true
  owner : s.owner.stopping = false
  ingest : s.owner = .launchIngest ∨ s.ingestJoinable = true

theorem unjoined_step (h : Step cfg s a t) (hs : Unjoined s) : Unjoined t := by
  by_cases ha : a = .owner
  · subst ha
    obtain ⟨hst, hns, hi⟩ := hs
    cases h with
    | startThrows | requestStop | stopIdle => exact ⟨hst, hns, hi⟩
    | start => exact ⟨hst, rfl, Or.inl rfl⟩
    | launchIngest => exact ⟨hst, rfl, Or.inr rfl⟩
    | launchPublish ho => exact ⟨hst, rfl, Or.inr (by simpa [ho] using hi)⟩
    | stop _ _ hn => simp [hst] at hn
    | joinIngest ho | shutDownQueue ho | joinPublish ho => simp [ho, OwnerPC.stopping] at hns
  · obtain ⟨ho, -, -, hsp, hij, -⟩ := worker_frame h ha
    exact ⟨hsp ▸ hs.stopped, ho ▸ hs.owner, by rw [ho, hij]; exact hs.ingest⟩

theorem unjoined_starts (h : Step cfg s .owner t) (hs : Starts s .owner t)
    (hst : s.stopped = true) : Unjoined t := by
  obtain ⟨-, ⟨ho, hscript⟩, hlaunch⟩ := hs
  have hstop : t.stopped = true := by
    cases h <;> simp_all
  exact ⟨hstop, by simp [hlaunch, OwnerPC.stopping], Or.inl hlaunch⟩

theorem unjoined_terminates (hs : Unjoined s) (hr : Returned s) : Terminates s := by
  rcases hs.ingest with ho | hj
  · simp [hr.1] at ho
  · exact ⟨hr, Or.inl hj⟩

/-- A `start()` that does not get past `source_->start()` changes nothing. -/
theorem start_throws (h : Step cfg s .owner t) (hc : CallsStart s)
    (hn : ¬ Starts s .owner t) : t = { s with script := s.script.tail } := by
  obtain ⟨ho, hscript⟩ := hc
  cases h with
  | startThrows _ hs => simp [hs]
  | start _ hs => exact (hn ⟨rfl, ⟨ho, hscript⟩, rfl⟩).elim
  | _ => simp_all

theorem requestStop_effect (h : Step cfg s .owner t) (ho : s.owner = .idle)
    (hscript : s.script = .requestStop :: rest) :
    t = { s with script := rest, sourceStopped := s.sourceStopped || s.started } := by
  cases h <;> simp_all

theorem stop_no_effect (h : Step cfg s .owner t) (ho : s.owner = .idle)
    (hscript : s.script = .stop :: rest) (hn : s.started = false ∨ s.stopped = true) :
    t = { s with script := rest } := by
  rcases hn with hn | hn <;> cases h <;> simp_all

/-- No thread is left unjoined unless a `start()` succeeded after a `stop()`, and then one
always is: `stopped_` stays set, so `stop()` does not join the second pair. -/
theorem destruction_joins_without_restart (cfg : Config α) (calls : List Call) :
    (∀ s, Reachable (WithoutRestart cfg) (initial cfg (calls ++ destructor)) s →
      ¬ Terminates s) ∧
    (∀ s t u, Reachable (Disciplined cfg) (initial cfg (calls ++ destructor)) s →
      Disciplined cfg s .owner t → Starts s .owner t → s.stopped = true →
      Reachable (Disciplined cfg) t u → Returned u → Terminates u) ∧
    (∀ s t, Step cfg s .owner t → CallsStart s → ¬ Starts s .owner t →
      t = { s with script := s.script.tail }) ∧
    (∀ s t rest, Step cfg s .owner t → s.owner = .idle → s.script = .requestStop :: rest →
      t = { s with script := rest, sourceStopped := s.sourceStopped || s.started }) ∧
    (∀ s t rest, Step cfg s .owner t → s.owner = .idle → s.script = .stop :: rest →
      s.started = false ∨ s.stopped = true → t = { s with script := rest }) := by
  refine ⟨?_, ?_, ?_, ?_, ?_⟩
  · intro s h
    obtain ⟨ht, he, hl⟩ := joined_reachable h
    exact not_terminates ht he hl
  · intro s t u _ hstep hstarts hst hu hr
    have ht := unjoined_starts hstep.1 hstarts hst
    have hu' := hu.invariant ht fun hv hs => unjoined_step hs.1 hv
    exact unjoined_terminates hu' hr
  · intro s t h hc hn
    exact start_throws h hc hn
  · intro s t rest h ho hscript
    exact requestStop_effect h ho hscript
  · intro s t rest h ho hscript hn
    exact stop_no_effect h ho hscript hn

/-- A live source whose provider sends nothing: `next()` returns once `stop()` is called. -/
def Source.silent : Source ℕ where
  mayReturn _ late now r := (late = true ∨ now = true) ∧ r = none
  clearsOnStart := true

theorem disciplined_of_step (h : Step cfg s a t) (hn : a = .owner → ¬ CallsStart s) :
    Disciplined cfg s a t :=
  ⟨h, fun ha hc => (hn ha hc).elim⟩

theorem withoutRestart_of_step (h : Step cfg s a t) (hn : a = .owner → ¬ CallsStart s) :
    WithoutRestart cfg s a t :=
  ⟨disciplined_of_step h hn, fun hs => (hn hs.1 hs.2.1).elim⟩

/-- One `start()` and one `stop()`, whatever is called after them. -/
theorem one_cycle (later : List Call) :
    ∃ s, Reachable (WithoutRestart ⟨1, .silent, fun _ => true, false⟩)
        (initial ⟨1, .silent, fun _ => true, false⟩ ([.start, .requestStop, .stop] ++ later)) s ∧
      s.owner = .idle ∧ s.script = later ∧ s.started = true ∧ s.stopped = true ∧
      s.ingestJoinable = false ∧ s.publishJoinable = false := by
  have h₁ : Reachable (WithoutRestart ⟨1, .silent, fun _ => true, false⟩)
      (initial ⟨1, .silent, fun _ => true, false⟩ ([.start, .requestStop, .stop] ++ later)) _ :=
    (Reachable.refl _).snoc ⟨⟨.start rfl rfl, fun _ _ => ⟨rfl, rfl⟩⟩, fun _ => rfl⟩
  have h₂ := h₁.snoc (withoutRestart_of_step (.launchIngest rfl rfl) (by simp [CallsStart]))
  have h₃ := h₂.snoc (withoutRestart_of_step (.launchPublish rfl rfl) (by simp [CallsStart]))
  have h₄ := h₃.snoc (withoutRestart_of_step (.callNext rfl) (by simp))
  have h₅ := h₄.snoc (withoutRestart_of_step (.requestStop rfl rfl) (by simp [CallsStart]))
  have h₆ := h₅.snoc (withoutRestart_of_step (.nextFalse rfl ⟨Or.inr rfl, rfl⟩) (by simp))
  have h₇ := h₆.snoc (withoutRestart_of_step (.finishIngest rfl) (by simp))
  have h₈ := h₇.snoc (withoutRestart_of_step (.stop rfl rfl rfl) (by simp [CallsStart]))
  have h₉ := h₈.snoc (withoutRestart_of_step (.joinIngest rfl (fun _ => rfl))
    (by simp [CallsStart]))
  have h₁₀ := h₉.snoc (withoutRestart_of_step (.shutDownQueue rfl) (by simp [CallsStart]))
  have h₁₁ := h₁₀.snoc (withoutRestart_of_step (.popFalse rfl rfl rfl) (by simp))
  have h₁₂ := h₁₁.snoc (withoutRestart_of_step (.flush rfl) (by simp))
  have h₁₃ := h₁₂.snoc (withoutRestart_of_step (.joinPublish rfl (fun _ => rfl))
    (by simp [CallsStart]))
  exact ⟨_, h₁₃, rfl, rfl, rfl, rfl, rfl, rfl⟩

/-- The destructor after one such cycle. -/
theorem destruction_joins_after_one_cycle :
    ∃ s, Reachable (WithoutRestart ⟨1, .silent, fun _ => true, false⟩)
        (initial ⟨1, .silent, fun _ => true, false⟩
          ([.start, .requestStop, .stop] ++ destructor)) s ∧
      Returned s ∧ s.started = true ∧ ¬ Terminates s := by
  obtain ⟨s, h, ho, hscript, hst, hsp, -⟩ := one_cycle destructor
  have h₁ := h.snoc (withoutRestart_of_step (.requestStop ho hscript)
    (by simp [CallsStart, hscript, destructor]))
  have h₂ := h₁.snoc (withoutRestart_of_step (.stopIdle ho rfl (by simp [hsp]))
    (by simp [CallsStart]))
  exact ⟨_, h₂, ⟨ho, rfl⟩, hst,
    (destruction_joins_without_restart _ [.start, .requestStop, .stop]).1 _ h₂⟩

/-- The destructor after a second `start()`: both threads are still joinable. -/
theorem destruction_terminates_after_restart :
    ∃ s, Reachable (Disciplined ⟨1, .silent, fun _ => true, false⟩)
        (initial ⟨1, .silent, fun _ => true, false⟩
          ([.start, .requestStop, .stop, .start] ++ destructor)) s ∧
      Terminates s ∧ s.ingestJoinable = true ∧ s.publishJoinable = true := by
  obtain ⟨s, h, ho, hscript, hst, hsp, hij, hpj⟩ := one_cycle (.start :: destructor)
  have h' := h.mono fun hs => hs.1
  have h₁ := h'.snoc (a := .owner) ⟨.start ho hscript, fun _ _ => ⟨hij, hpj⟩⟩
  have h₂ := h₁.snoc (disciplined_of_step (.launchIngest rfl hij) (by simp [CallsStart]))
  have h₃ := h₂.snoc (disciplined_of_step (.launchPublish rfl hpj) (by simp [CallsStart]))
  have h₄ := h₃.snoc (disciplined_of_step (.requestStop rfl rfl)
    (by simp [CallsStart, destructor]))
  have h₅ := h₄.snoc (disciplined_of_step (.stopIdle rfl rfl (by simp [hsp]))
    (by simp [CallsStart]))
  exact ⟨_, h₅, ⟨⟨rfl, rfl⟩, Or.inl rfl⟩, rfl, rfl⟩

end TickForge.IngestionPipeline
