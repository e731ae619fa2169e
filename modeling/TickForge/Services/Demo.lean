import TickForge.Capture.Recapture
import TickForge.Lib.Histogram

/-! The ingestion demo: a source, a recorder and the terminal, with no queue between them. -/
namespace TickForge.IngestionDemo

open ByteString Transition Histogram Nlohmann EventRecorder
open IngestionPipeline (Source)

/-- What the command line has chosen. -/
structure Setup (α : Type*) where
  source : Source α
  recorder : Bool

/-- Positions of `ingestion_thread`. -/
inductive ThreadPC (α : Type*) where
  | notStarted
  | atNext
  | inNext (late : Bool)
  | returned (event : α)
  | counted (event : α)
  | recorded (event : α)
  /-- Behind the loop, then behind its last line. -/
  | ended
  | reported
  | done
  deriving DecidableEq, Repr

/-- Positions of `main()` from `source->start()` on. -/
inductive MainPC where
  | starting
  | launching
  | polling
  | sleeping
  | stopping
  | joining
  | returned
  /-- An exception out of `source->start()`. -/
  | terminated
  deriving DecidableEq, Repr

structure State (α : Type*) where
  main : MainPC
  thread : ThreadPC α
  /-- `g_shutdown_requested`, which a signal sets and the end of the thread does too. -/
  shutdownRequested : Bool
  signalled : Bool
  sourceStopped : Bool
  nextCalls : ℕ
  yielded : List α
  eventCount : ℕ
  recorded : List α
  /-- The events that went to the terminal, each with its number. -/
  sampled : List (α × ℕ)
  /-- The number in the last line of the thread. -/
  total : Option ℕ

inductive Actor where
  | signal
  | main
  | thread
  deriving DecidableEq, Repr

variable {α : Type*}

def initial : State α where
  main := .starting
  thread := .notStarted
  shutdownRequested := false
  signalled := false
  sourceStopped := false
  nextCalls := 0
  yielded := []
  eventCount := 0
  recorded := []
  sampled := []
  total := none

inductive Step (cfg : Setup α) : State α → Actor → State α → Prop where
  | signal {s} : s.signalled = false →
      Step cfg s .signal { s with signalled := true, shutdownRequested := true }
  | startThrows {s} : s.main = .starting → Step cfg s .main { s with main := .terminated }
  | start {s} : s.main = .starting → Step cfg s .main { s with main := .launching }
  | launch {s} : s.main = .launching →
      Step cfg s .main { s with main := .polling, thread := .atNext }
  | requestSeen {s} : s.main = .polling → s.shutdownRequested = true →
      Step cfg s .main { s with main := .stopping }
  | noRequest {s} : s.main = .polling → s.shutdownRequested = false →
      Step cfg s .main { s with main := .sleeping }
  | wake {s} : s.main = .sleeping → Step cfg s .main { s with main := .polling }
  | stop {s} : s.main = .stopping →
      Step cfg s .main { s with main := .joining, sourceStopped := true }
  | join {s} : s.main = .joining → s.thread = .done →
      Step cfg s .main { s with main := .returned }
  | callNext {s} : s.thread = .atNext →
      Step cfg s .thread { s with thread := .inNext s.sourceStopped }
  | nextTrue {s late e} : s.thread = .inNext late →
      cfg.source.mayReturn s.nextCalls late s.sourceStopped (some e) →
      Step cfg s .thread { s with
        thread := .returned e, nextCalls := s.nextCalls + 1, yielded := s.yielded ++ [e] }
  | nextFalse {s late} : s.thread = .inNext late →
      cfg.source.mayReturn s.nextCalls late s.sourceStopped none →
      Step cfg s .thread { s with thread := .ended, nextCalls := s.nextCalls + 1 }
  | count {s e} : s.thread = .returned e →
      Step cfg s .thread { s with thread := .counted e, eventCount := s.eventCount + 1 }
  | record {s e} : s.thread = .counted e →
      Step cfg s .thread { s with
        thread := .recorded e
        recorded := if cfg.recorder then s.recorded ++ [e] else s.recorded }
  | sample {s e} : s.thread = .recorded e →
      Step cfg s .thread { s with
        thread := .atNext
        sampled := if s.eventCount % 20 = 1 then s.sampled ++ [(e, s.eventCount)] else s.sampled }
  | report {s} : s.thread = .ended →
      Step cfg s .thread { s with thread := .reported, total := some s.eventCount }
  | request {s} : s.thread = .reported →
      Step cfg s .thread { s with thread := .done, shutdownRequested := true }

variable {cfg : Setup α} {s t : State α} {a : Actor} {events : List α} {xs : List Actor}

/-- The event that the thread has not put into `event_count` yet. -/
def ThreadPC.uncounted : ThreadPC α → List α
  | .returned e => [e]
  | _ => []

def ThreadPC.unrecorded : ThreadPC α → List α
  | .returned e | .counted e => [e]
  | _ => []

def ThreadPC.unsampled : ThreadPC α → List α
  | .returned e | .counted e | .recorded e => [e]
  | _ => []

/-- The last line of the thread has been printed. -/
def ThreadPC.finished : ThreadPC α → Bool
  | .reported | .done => true
  | _ => false

/-- What the thread has made of the events that `next()` returned. -/
structure Tally (cfg : Setup α) (s : State α) : Prop where
  count : s.yielded.length = s.eventCount + s.thread.uncounted.length
  recorded : cfg.recorder = true → s.yielded = s.recorded ++ s.thread.unrecorded
  sampled : ∃ before, s.yielded = before ++ s.thread.unsampled ∧
    s.sampled = everyNth 20 (before.zipIdx 1)
  total : s.thread.finished = true → s.total = some s.yielded.length

theorem tally_initial (cfg : Setup α) : Tally cfg initial :=
  ⟨rfl, fun _ => rfl, ⟨[], rfl, rfl⟩, by simp [initial, ThreadPC.finished]⟩

/-- Only the launch moves the thread from outside, and it holds no event then. -/
theorem tally_step (h : Step cfg s a t) (hl : s.main = .launching → s.thread = .notStarted)
    (hs : Tally cfg s) : Tally cfg t := by
  obtain ⟨hcount, hrec, ⟨before, hbefore, hsamp⟩, htotal⟩ := hs
  cases h with
  | launch hm =>
    rw [hl hm] at hcount hrec hbefore
    exact ⟨hcount, hrec, ⟨before, hbefore, hsamp⟩, by simp [ThreadPC.finished]⟩
  | callNext hth | nextFalse hth _ =>
    rw [hth] at hcount hrec hbefore
    exact ⟨hcount, hrec, ⟨before, hbefore, hsamp⟩, by simp [ThreadPC.finished]⟩
  | @nextTrue late e hth _ =>
    rw [hth] at hcount hrec hbefore
    simp only [ThreadPC.uncounted, ThreadPC.unrecorded, ThreadPC.unsampled, List.append_nil,
      List.length_nil] at hcount hrec hbefore
    refine ⟨?_, ?_, ⟨before, by rw [hbefore]; rfl, hsamp⟩, by simp [ThreadPC.finished]⟩
    · simpa [ThreadPC.uncounted] using hcount
    · intro hr
      rw [hrec hr]
      rfl
  | @count e hth =>
    rw [hth] at hcount hrec hbefore
    exact ⟨hcount, hrec, ⟨before, hbefore, hsamp⟩, by simp [ThreadPC.finished]⟩
  | @record e hth =>
    rw [hth] at hcount hrec hbefore
    refine ⟨hcount, ?_, ⟨before, hbefore, hsamp⟩, by simp [ThreadPC.finished]⟩
    intro hr
    simpa [hr, ThreadPC.unrecorded] using hrec hr
  | @sample e hth =>
    rw [hth] at hcount hrec hbefore
    have hnum : s.eventCount = before.length + 1 := by
      rw [hbefore] at hcount
      simpa [ThreadPC.unsampled, ThreadPC.uncounted] using hcount.symm
    refine ⟨hcount, hrec, ⟨before ++ [e], by simpa [ThreadPC.unsampled] using hbefore, ?_⟩,
      by simp [ThreadPC.finished]⟩
    rw [List.zipIdx_append, List.zipIdx_singleton, everyNth_concat, List.length_zipIdx, hsamp,
      hnum, Nat.add_comm 1]
  | report hth =>
    rw [hth] at hcount hrec hbefore
    refine ⟨hcount, hrec, ⟨before, hbefore, hsamp⟩, fun _ => ?_⟩
    rw [hcount]
    rfl
  | request hth =>
    rw [hth] at hcount hrec hbefore htotal
    exact ⟨hcount, hrec, ⟨before, hbefore, hsamp⟩, fun _ => htotal rfl⟩
  | _ => exact ⟨hcount, hrec, ⟨before, hbefore, hsamp⟩, htotal⟩

/-- Positions of `main()` without a thread. -/
def MainPC.alone : MainPC → Bool
  | .starting | .launching | .terminated => true
  | _ => false

/-- Positions behind `source->stop()`. -/
def MainPC.leaving : MainPC → Bool
  | .joining | .returned => true
  | _ => false

/-- How `main()`, the thread and the two requests go together. -/
structure Control (s : State α) : Prop where
  alone : s.thread = .notStarted ↔ s.main.alone = true
  joined : s.main = .returned → s.thread = .done
  stopped : s.sourceStopped = s.main.leaving
  requested : s.shutdownRequested = true ↔ s.signalled = true ∨ s.thread = .done
  noticed : s.main = .stopping ∨ s.main.leaving = true → s.shutdownRequested = true

theorem control_initial : Control (initial : State α) := by
  constructor <;> simp [initial, MainPC.alone, MainPC.leaving]

theorem control_step (h : Step cfg s a t) (hs : Control s) : Control t := by
  obtain ⟨halone, hjoined, hstopped, hreq, hnote⟩ := hs
  cases h with
  | signal hsig =>
    exact ⟨halone, hjoined, hstopped, by simp, fun _ => rfl⟩
  | startThrows hm | start hm | launch hm | noRequest hm _ | wake hm | requestSeen hm _ | stop hm
    | join hm _ =>
    rw [hm] at halone hstopped hnote
    constructor <;> simp_all [MainPC.alone, MainPC.leaving]
  | callNext hth | nextTrue hth _ | nextFalse hth _ | count hth | record hth | sample hth
    | report hth | request hth =>
    rw [hth] at halone hreq
    constructor <;> simp_all

/-- What every reachable state satisfies. -/
structure Books (cfg : Setup α) (s : State α) : Prop where
  control : Control s
  tally : Tally cfg s

theorem books_step (h : Step cfg s a t) (hs : Books cfg s) : Books cfg t := by
  refine ⟨control_step h hs.control, tally_step h ?_ hs.tally⟩
  intro hm
  rw [hs.control.alone, hm]
  rfl

theorem books_reachable (h : Reachable (Step cfg) initial s) : Books cfg s :=
  h.invariant (P := Books cfg) ⟨control_initial, tally_initial cfg⟩ fun hs ht => books_step ht hs

/-- The thread has not left its loop. -/
def ThreadPC.looping : ThreadPC α → Bool
  | .ended | .reported | .done => false
  | _ => true

/-- The calls follow the events of the source, and a loop that no signal has ended has had
all of them. -/
structure Sequenced (events : List α) (s : State α) : Prop where
  calls : s.thread.looping = true → s.nextCalls = s.yielded.length
  yielded : s.yielded <+: events
  whole : s.thread.looping = false → s.signalled = false → s.yielded = events

theorem sequenced_step (hsrc : cfg.source.Follows events) (h : Step cfg s a t)
    (hc : Control s) (hs : Sequenced events s) : Sequenced events t := by
  obtain ⟨hcalls, hpre, hwhole⟩ := hs
  cases h with
  | signal => exact ⟨hcalls, hpre, by simp⟩
  | launch hm =>
    have hth := hc.alone.mpr (by rw [hm]; rfl)
    exact ⟨fun _ => hcalls (by rw [hth]; rfl), hpre, by simp [ThreadPC.looping]⟩
  | callNext hth | count hth | record hth | sample hth =>
    exact ⟨fun _ => hcalls (by rw [hth]; rfl), hpre, by simp [ThreadPC.looping]⟩
  | @nextTrue late e hth hr =>
    have hnext := hsrc.delivers hr
    rw [hcalls (by rw [hth]; rfl)] at hnext
    refine ⟨fun _ => by simp [hcalls (by rw [hth]; rfl)], ?_, by simp [ThreadPC.looping]⟩
    obtain ⟨rest, rfl⟩ := hpre
    rw [List.getElem?_append_right (Nat.le_refl _), Nat.sub_self] at hnext
    cases rest with
    | nil => simp at hnext
    | cons d rest =>
      obtain rfl : d = e := by simpa using hnext
      exact ⟨rest, by simp⟩
  | @nextFalse late hth hr =>
    refine ⟨by simp [ThreadPC.looping], hpre, ?_⟩
    intro _ hsig
    -- without a signal nobody has called `stop()`, so the call has met the end
    have hstop : s.sourceStopped = false := by
      rw [hc.stopped, ← Bool.not_eq_true]
      intro hleave
      have hreq := hc.requested.mp (hc.noticed (Or.inr hleave))
      simp_all
    rw [hstop] at hr
    have hnone := hsrc.ends hr
    rw [hcalls (by rw [hth]; rfl), List.getElem?_eq_none_iff] at hnone
    exact hpre.eq_of_length_le hnone
  | report hth | request hth =>
    rw [hth] at hwhole
    exact ⟨by simp [ThreadPC.looping], hpre, fun _ => hwhole rfl⟩
  | _ => exact ⟨hcalls, hpre, hwhole⟩

theorem sequenced_reachable (hsrc : cfg.source.Follows events)
    (h : Reachable (Step cfg) initial s) : Sequenced events s := by
  refine (h.invariant (P := fun s => Books cfg s ∧ Sequenced events s)
    ⟨⟨control_initial, tally_initial cfg⟩, ?_⟩ ?_).2
  · exact ⟨fun _ => rfl, by simp [initial], by simp [initial, ThreadPC.looping]⟩
  · intro s a t hs hstep
    exact ⟨books_step hstep hs.1, sequenced_step hsrc hstep hs.1.control hs.2⟩

/-- When `main()` returns, the total, the capture and the terminal are those of the events
that the source has yielded: each counted and recorded once, in order, and the first of every
twenty printed under its number. A run without a signal has taken all there is. -/
theorem demo_run_exact (cfg : Setup α) {s : State α} (h : Reachable (Step cfg) initial s)
    (hm : s.main = .returned) :
    s.total = some s.yielded.length ∧ s.eventCount = s.yielded.length ∧
    (cfg.recorder = true → s.recorded = s.yielded) ∧
    s.sampled = everyNth 20 (s.yielded.zipIdx 1) ∧
    ∀ events, cfg.source.Follows events →
      s.yielded <+: events ∧ (s.signalled = false → s.yielded = events) := by
  obtain ⟨hc, hcount, hrec, ⟨before, hbefore, hsamp⟩, htotal⟩ := books_reachable h
  have hth := hc.joined hm
  rw [hth] at hcount hrec hbefore htotal
  simp only [ThreadPC.uncounted, ThreadPC.unrecorded, ThreadPC.unsampled, List.append_nil,
    List.length_nil, Nat.add_zero] at hcount hrec hbefore
  refine ⟨htotal rfl, hcount.symm, fun hr => (hrec hr).symm, by rw [hsamp, hbefore], ?_⟩
  intro events hsrc
  have hseq := sequenced_reachable hsrc h
  exact ⟨hseq.yielded, hseq.whole (by rw [hth]; rfl)⟩

/-- Between two calls of `next()`, with `main()` in its poll loop. -/
def between (before : List α) (n : ℕ) (sampled : List (α × ℕ)) : State α where
  main := .polling
  thread := .atNext
  shutdownRequested := false
  signalled := false
  sourceStopped := false
  nextCalls := n
  yielded := before
  eventCount := n
  recorded := before
  sampled := sampled
  total := none

variable {source : Source α}

theorem between_step {before : List α} {n : ℕ} {e : α} (sampled : List (α × ℕ))
    (h : source.mayReturn n false false (some e)) :
    Reachable (Step ⟨source, true⟩) (between before n sampled) (between (before ++ [e]) (n + 1)
      (if (n + 1) % 20 = 1 then sampled ++ [(e, n + 1)] else sampled)) := by
  have h₁ := (Reachable.refl (between before n sampled)).snoc
    (show Step ⟨source, true⟩ _ .thread _ from .callNext rfl)
  have h₂ := h₁.snoc (.nextTrue rfl h)
  have h₃ := h₂.snoc (.count rfl)
  have h₄ := h₃.snoc (.record rfl)
  exact h₄.snoc (.sample rfl)

theorem between_reachable
    (hsrc : ∀ k ≤ events.length, source.mayReturn k false false events[k]?) :
    ∃ sampled, Reachable (Step ⟨source, true⟩) initial
      (between events events.length sampled) := by
  have h₁ : Reachable (Step ⟨source, true⟩) (initial : State α) _ :=
    (Reachable.refl _).snoc (.start rfl)
  have h₂ := h₁.snoc (.launch rfl)
  have hall : ∃ t, Reachable (Step ⟨source, true⟩) (between [] 0 []) t ∧
      ∃ sampled, t = between events events.length sampled := by
    refine Reachable.through
      (P := fun before t => ∃ sampled, t = between before before.length sampled) ?_ ⟨[], rfl⟩
    rintro before e after _ rfl ⟨sampled, rfl⟩
    have hnext := hsrc before.length (by simp)
    refine ⟨_, between_step sampled (by simpa using hnext), if (before.length + 1) % 20 = 1 then
      sampled ++ [(e, before.length + 1)] else sampled, ?_⟩
    rw [List.length_append, List.length_singleton]
  obtain ⟨t, ht, sampled, rfl⟩ := hall
  exact ⟨sampled, h₂.trans ht⟩

/-- A source that nobody stops can be run to its end, and the demo then ends by itself. -/
theorem whole_run (hsrc : ∀ k ≤ events.length, source.mayReturn k false false events[k]?) :
    ∃ s, Reachable (Step ⟨source, true⟩) initial s ∧ s.main = .returned ∧
      s.signalled = false ∧ s.yielded = events := by
  obtain ⟨sampled, h⟩ := between_reachable hsrc
  have hend := hsrc events.length (Nat.le_refl _)
  rw [List.getElem?_eq_none (Nat.le_refl _)] at hend
  have h₁ := h.snoc (.callNext rfl)
  have h₂ := h₁.snoc (.noRequest rfl rfl)
  have h₃ := h₂.snoc (.nextFalse rfl hend)
  have h₄ := h₃.snoc (.report rfl)
  have h₅ := h₄.snoc (.request rfl)
  have h₆ := h₅.snoc (.wake rfl)
  have h₇ := h₆.snoc (.requestSeen rfl rfl)
  have h₈ := h₇.snoc (.stop rfl)
  have h₉ := h₈.snoc (.join rfl rfl)
  exact ⟨_, h₉, rfl, rfl, rfl⟩

/-- Of twenty-one events the first and the last are printed. -/
theorem demo_run_exact_twenty_one_events : ∃ s : State ℕ, s.main = .returned ∧
    s.total = some 21 ∧ s.recorded = List.range 21 ∧ s.sampled = [(0, 1), (20, 21)] := by
  obtain ⟨s, h, hm, -, hyield⟩ :=
    @whole_run ℕ (List.range 21) ⟨fun k _ _ r => r = (List.range 21)[k]?, false⟩ fun _ _ => rfl
  obtain ⟨htotal, -, hrec, hsamp, -⟩ := demo_run_exact _ h hm
  rw [hyield] at htotal hsamp
  exact ⟨s, hm, htotal, (hrec rfl).trans hyield, hsamp.trans (by decide)⟩

/-- The steps that the thread has taken, as its position and the events tell them: five for
an event and four for the end. -/
def ThreadPC.Taken (n k : ℕ) : ThreadPC α → Prop
  | .notStarted | .atNext => k = 5 * n
  | .inNext _ => k = 5 * n + 1
  | .returned _ => k + 3 = 5 * n
  | .counted _ => k + 2 = 5 * n
  | .recorded _ => k + 1 = 5 * n
  | .ended => k = 5 * n + 2
  | .reported => k = 5 * n + 3
  | .done => k = 5 * n + 4

theorem taken_trace (h : Trace (Step cfg) initial xs s) :
    s.thread.Taken s.yielded.length (xs.count .thread) := by
  have hboth := h.invariant (P := fun xs s => Control s ∧
      s.thread.Taken s.yielded.length (xs.count .thread)) ⟨control_initial, rfl⟩ ?_
  · exact hboth.2
  · rintro xs s a t ⟨hc, hs⟩ hstep
    refine ⟨control_step hstep hc, ?_⟩
    rw [List.count_append]
    cases hstep with
    | launch hm =>
      rw [hc.alone.mpr (by rw [hm]; rfl)] at hs
      exact hs
    | callNext hth | nextTrue hth _ | nextFalse hth _ | count hth | record hth | sample hth
      | report hth | request hth =>
      rw [hth] at hs
      simp [ThreadPC.Taken] at hs ⊢
      omega
    | _ => exact hs

/-- A source with finitely many events keeps the thread busy for a bounded time. -/
theorem thread_bounded (hsrc : cfg.source.Follows events) (h : Trace (Step cfg) initial xs s) :
    xs.count .thread ≤ 5 * events.length + 4 := by
  have hle := (sequenced_reachable hsrc ⟨xs, h⟩).yielded.length_le
  have htaken := taken_trace h
  unfold ThreadPC.Taken at htaken
  split at htaken <;> omega

/-- A thread that runs is never blocked, given that `next()` returns. -/
theorem thread_moves (hsrc : cfg.source.Obeys) (hc : Control s) (hm : s.main.alone = false)
    (hth : s.thread ≠ .done) : ∃ t, Step cfg s .thread t := by
  cases hpc : s.thread with
  | notStarted => simp [hc.alone.mp hpc] at hm
  | atNext => exact ⟨_, .callNext hpc⟩
  | inNext late =>
    obtain ⟨r, hr⟩ := hsrc.returns s.nextCalls late s.sourceStopped
    cases r with
    | none => exact ⟨_, .nextFalse hpc hr⟩
    | some e => exact ⟨_, .nextTrue hpc hr⟩
  | returned e => exact ⟨_, .count hpc⟩
  | counted e => exact ⟨_, .record hpc⟩
  | recorded e => exact ⟨_, .sample hpc⟩
  | ended => exact ⟨_, .report hpc⟩
  | reported => exact ⟨_, .request hpc⟩
  | done => exact absurd hpc hth

/-- `main()` is in its poll loop or about to call `stop()`. -/
def MainPC.polls : MainPC → Bool
  | .polling | .sleeping | .stopping => true
  | _ => false

theorem main_moves (hm : s.main.polls = true) : ∃ t, Step cfg s .main t := by
  cases hpc : s.main with
  | polling =>
    cases hr : s.shutdownRequested with
    | true => exact ⟨_, .requestSeen hpc hr⟩
    | false => exact ⟨_, .noRequest hpc hr⟩
  | sleeping => exact ⟨_, .wake hpc⟩
  | stopping => exact ⟨_, .stop hpc⟩
  | _ => simp [hpc, MainPC.polls] at hm

/-- The actions of `main()` up to its call of `stop()` once the request is there. -/
def MainPC.pollRank : MainPC → ℕ
  | .sleeping => 3
  | .polling => 2
  | .stopping => 1
  | _ => 0

theorem leaving_step (h : Step cfg s a t) (hm : s.main.leaving = true) :
    t.main.leaving = true := by
  cases h with
  | startThrows hpc | start hpc | launch hpc | requestSeen hpc _ | noRequest hpc _ | wake hpc
    | stop hpc =>
    simp [hpc, MainPC.leaving] at hm
  | join => rfl
  | _ => exact hm

/-- Each action of `main()` brings it nearer to its call of `stop()`, and no other action
takes it away. -/
theorem noticed_trace (hm : s.main.polls = true) (hreq : s.shutdownRequested = true)
    (h : Trace (Step cfg) s xs t) :
    t.main.leaving = true ∨ (t.main.polls = true ∧ t.shutdownRequested = true ∧
      xs.count .main + t.main.pollRank ≤ s.main.pollRank) := by
  induction h with
  | refl => exact Or.inr ⟨hm, hreq, by simp⟩
  | @snoc t u xs a _ hstep ih =>
    rcases ih with hleave | ⟨hpolls, hr, hle⟩
    · exact Or.inl (leaving_step hstep hleave)
    · rw [List.count_append]
      cases hstep with
      | startThrows hpc | start hpc | launch hpc | join hpc _ =>
        simp [hpc, MainPC.polls] at hpolls
      | noRequest _ hno => simp [hr] at hno
      | requestSeen hpc _ | wake hpc =>
        rw [hpc] at hle
        refine Or.inr ⟨rfl, hr, ?_⟩
        simp [MainPC.pollRank] at hle ⊢
        omega
      | stop => exact Or.inl rfl
      | signal | request => exact Or.inr ⟨hpolls, rfl, hle⟩
      | _ => exact Or.inr ⟨hpolls, hr, hle⟩

/-- The actions the thread has left behind `stop()`; a call that began before it may still
bring one event. -/
def ThreadPC.rank : ThreadPC α → ℕ
  | .inNext false => 8
  | .returned _ => 7
  | .counted _ => 6
  | .recorded _ => 5
  | .atNext => 4
  | .inNext true => 3
  | .ended => 2
  | .reported => 1
  | .notStarted | .done => 0

def exitRank (s : State α) : ℕ :=
  s.thread.rank + (!s.signalled).toNat + if s.main = .joining then 1 else 0

theorem exitRank_le (s : State α) : exitRank s ≤ 10 := by
  have hthread : s.thread.rank ≤ 8 := by
    unfold ThreadPC.rank
    split <;> omega
  have hsignal := Bool.toNat_le (!s.signalled)
  unfold exitRank
  split <;> omega

theorem exitRank_step (hsrc : cfg.source.Obeys) (h : Step cfg s a t) (hc : Control s)
    (hm : s.main.leaving = true) : exitRank t < exitRank s := by
  have hstop : s.sourceStopped = true := hc.stopped.trans hm
  cases h with
  | startThrows hpc | start hpc | launch hpc | requestSeen hpc _ | noRequest hpc _ | wake hpc
    | stop hpc =>
    simp [hpc, MainPC.leaving] at hm
  | signal hsig => simp [exitRank, hsig]
  | join hpc hth => simp [exitRank, hpc]
  | callNext hth => simp [exitRank, hth, hstop, ThreadPC.rank]
  | @nextTrue late e hth hr =>
    cases late with
    | true => exact absurd hr (hsrc.stops _ _ _)
    | false => simp [exitRank, hth, ThreadPC.rank]
  | @nextFalse late hth hr => cases late <;> simp [exitRank, hth, ThreadPC.rank]
  | count hth | record hth | sample hth | report hth | request hth =>
    simp [exitRank, hth, ThreadPC.rank]

theorem exit_moves (hsrc : cfg.source.Obeys) (hc : Control s) (hm : s.main.leaving = true) :
    s.main = .returned ∨ ∃ a t, Step cfg s a t := by
  cases hpc : s.main with
  | returned => exact Or.inl rfl
  | joining =>
    refine Or.inr ?_
    by_cases hth : s.thread = .done
    · exact ⟨_, _, .join hpc hth⟩
    · obtain ⟨t, ht⟩ := thread_moves hsrc hc (by rw [hpc]; rfl) hth
      exact ⟨_, t, ht⟩
  | _ => simp [hpc, MainPC.leaving] at hm

/-- The demo exits by itself and on request. While they run, neither the thread nor `main()`
is blocked, and a source with finitely many events ends the thread. After a signal or the end
of the thread `main()` calls `stop()` within three actions of its own, and it then returns
within ten actions of anybody. -/
theorem demo_exits (cfg : Setup α) (hsrc : cfg.source.Obeys) {s : State α}
    (h : Reachable (Step cfg) initial s) :
    (s.main.alone = false → s.thread ≠ .done → ∃ t, Step cfg s .thread t) ∧
    (s.main.polls = true → ∃ t, Step cfg s .main t) ∧
    (∀ events, cfg.source.Follows events → ∀ xs, Trace (Step cfg) initial xs s →
      xs.count .thread ≤ 5 * events.length + 4) ∧
    (s.main.polls = true → s.signalled = true ∨ s.thread = .done →
      ∀ xs t, Trace (Step cfg) s xs t → 3 ≤ xs.count .main → t.main.leaving = true) ∧
    (s.main.leaving = true → Within (Step cfg) (fun t => t.main = .returned) 10 s) := by
  have hc := (books_reachable h).control
  refine ⟨thread_moves hsrc hc, main_moves, fun events hf xs => thread_bounded hf, ?_, ?_⟩
  · intro hm hdue xs t ht hlen
    rcases noticed_trace hm (hc.requested.mpr hdue) ht with hleave | ⟨hpolls, -, hle⟩
    · exact hleave
    · have hmax : s.main.pollRank ≤ 3 := by cases s.main <;> simp [MainPC.pollRank]
      have hpos : 1 ≤ t.main.pollRank := by
        cases hpc : t.main <;> simp_all [MainPC.pollRank, MainPC.polls]
      omega
  · intro hm
    refine within_of_rank (I := fun t => Control t ∧ t.main.leaving = true) exitRank ?_ ?_ ?_
      ⟨hc, hm⟩ (exitRank_le s)
    · rintro t a u ⟨ht, hleave⟩ hstep
      exact ⟨control_step hstep ht, leaving_step hstep hleave⟩
    · rintro t a u ⟨ht, hleave⟩ hstep
      exact exitRank_step hsrc hstep ht hleave
    · rintro t ⟨ht, hleave⟩
      exact exit_moves hsrc ht hleave

/-- A signal before the first event: the thread is still inside `next()` when `stop()` comes. -/
theorem demo_exits_signalled : ∃ s : State ℕ, s.thread = .inNext false ∧ s.main = .joining ∧
    Within (Step ⟨.ofList [7], true⟩) (fun t => t.main = .returned) 10 s := by
  have h₁ : Reachable (Step ⟨.ofList [7], true⟩) (initial : State ℕ) _ :=
    (Reachable.refl _).snoc (.start rfl)
  have h₂ := h₁.snoc (.launch rfl)
  have h₃ := h₂.snoc (.callNext rfl)
  have h₄ := h₃.snoc (.signal rfl)
  have h₅ := h₄.snoc (.requestSeen rfl rfl)
  have h₆ := h₅.snoc (.stop rfl)
  exact ⟨_, rfl, rfl,
    (demo_exits _ (IngestionPipeline.Source.ofList_obeys [7]) h₆).2.2.2.2 rfl⟩

/-- The demo and the pipeline make the same capture of a replayed file, byte for byte,
whatever their schedules and clocks: one line for each event of the file. Each has read the
file to its end, so no line of it makes `next()` throw. -/
theorem demo_captures_as_pipeline {c : Codec} {file : Bytes} (hu : c.ReadsUtf8)
    {clock clock' : ℕ → Int64} {cfg : Setup MarketEvent}
    (hsrc : cfg.source = ReplaySource.source c clock file) (hrec : cfg.recorder = true)
    {s : State MarketEvent} (h : Reachable (Step cfg) initial s) (hm : s.main = .returned)
    (hsig : s.signalled = false) {pipe : IngestionPipeline.Config MarketEvent}
    {script : List IngestionPipeline.Call} {t : IngestionPipeline.State MarketEvent}
    (hsrc' : pipe.source = ReplaySource.source c clock' file) (hrec' : pipe.recorder = true)
    (ho : IngestionPipeline.OneStart script)
    (h' : Reachable (IngestionPipeline.Step pipe) (IngestionPipeline.initial pipe script) t)
    (hstop : t.stopped = true) (heof : t.exhausted = true) :
    recordAll c s.recorded = .ok ⟨canonical c file, []⟩ ∧
    recordAll c t.recorded = .ok ⟨canonical c file, []⟩ := by
  have hfile : ReplaySource.Readable c (.start file) := by
    obtain ⟨k, late, hend⟩ := IngestionPipeline.exhausted_returned h' heof
    rw [hsrc'] at hend
    exact ReplaySource.readable_of_end hend
  constructor
  · obtain ⟨delivered, hfollows, heq⟩ := ReplaySource.follows_accepted clock hfile
    have hth := (books_reachable h).control.joined hm
    have hwhole := (sequenced_reachable (hsrc ▸ hfollows) h).whole (by rw [hth]; rfl) hsig
    have hall := (books_reachable h).tally.recorded hrec
    simp only [hth, ThreadPC.unrecorded, List.append_nil] at hall
    exact recordAll_accepted hu (by rw [← hall, hwhole, heq])
  · obtain ⟨-, -, -, hrecorded⟩ := (IngestionPipeline.flow_reachable ho h').complete hstop
    rw [hrecorded hrec']
    exact recordAll_accepted hu (yielded_accepted hfile hsrc' ho h' heof)

/-- A file of two lines through both of them. -/
theorem demo_captures_as_pipeline_two_lines :
    ∃ (s : State MarketEvent) (t : IngestionPipeline.State MarketEvent),
      s.main = .returned ∧ s.yielded.length = 2 ∧ t.stopped = true ∧
      recordAll compact s.recorded = .ok ⟨twoLines, []⟩ ∧
      recordAll compact t.recorded = .ok ⟨twoLines, []⟩ := by
  obtain ⟨delivered, hlen, hsrc⟩ := twoLines_delivers
  obtain ⟨s, h, hm, hsig, hyield⟩ := whole_run hsrc
  obtain ⟨t, h', hstop, heof, -⟩ := IngestionPipeline.whole_run hsrc
  have hboth := demo_captures_as_pipeline compact_readsUtf8 rfl rfl h hm hsig rfl rfl (by decide)
    h' hstop heof
  rw [canonical_twoLines] at hboth
  exact ⟨s, t, hm, hyield ▸ hlen, hstop, hboth⟩

end TickForge.IngestionDemo
