import TickForge.BoundedQueue.Wakeups
import TickForge.IngestionPipeline.Machine
import TickForge.IngestionPipeline.Shutdown

/-! Shutdown over the condition variables: no wait hides a deadlock, and none lasts. -/
namespace TickForge.IngestionPipeline.Machine

open Transition
open TickForge.BoundedQueue (Action PC CV Covered AtPush AtPop)

variable {α : Type*} {cfg : Config α} {s : State α} {a b : Thread} {script : List Call}
  {m n : Machine α} {l : Thread × Option (Action α)} {f : Thread → PC α} {p : PC α}

instance : Fintype Thread where
  elems := {.owner, .ingest, .publish}
  complete a := by cases a <;> decide

/-- A spurious wake-up, which no action of the program causes. -/
def spurious : Thread × Option (Action α) → Bool
  | (_, some .spurious) => true
  | _ => false

/-- Parked in a wait of the queue. -/
def Parked (p : PC α) : Prop := p = .parkedNotEmpty ∨ ∃ e, p = .parkedNotFull e

/-- A thread about to take the mutex finds its condition true or parks. -/
theorem push_moves {e : α} (hm : InCall m.pipeline a (m.inside a))
    (h : AtPush e (m.inside a)) : ∃ l n, spurious l = false ∧ Step cfg m l n := by
  have ha : a = .ingest := by
    rcases h with h | h <;> rw [h] at hm <;> cases a <;> first | rfl | exact hm.elim
  subst ha
  cases hc : m.pipeline.queue.canPush with
  | false => exact ⟨_, _, rfl, .silent rfl (.pushPark h hc)⟩
  | true =>
    rcases hp : m.pipeline.queue.push e with ⟨ok, q⟩
    cases ok with
    | true => exact ⟨_, _, rfl, .push (.pushTrue h hc hp)⟩
    | false => exact ⟨_, _, rfl, .push (.pushFalse h hc hp)⟩

theorem pop_moves (hm : InCall m.pipeline a (m.inside a)) (h : AtPop (m.inside a)) :
    ∃ l n, spurious l = false ∧ Step cfg m l n := by
  have ha : a = .publish := by
    rcases h with h | h <;> rw [h] at hm <;> cases a <;> first | rfl | exact hm.elim
  subst ha
  cases hc : m.pipeline.queue.canPop with
  | false => exact ⟨_, _, rfl, .silent rfl (.popPark h hc)⟩
  | true =>
    rcases hp : m.pipeline.queue.pop with ⟨out, q⟩
    cases out with
    | none => exact ⟨_, _, rfl, .pop (.popFalse h hc hp)⟩
    | some e => exact ⟨_, _, rfl, .pop (.popTrue h hc hp)⟩

/-- Inside the queue a thread can always go on, unless it is parked. -/
theorem inside_moves (hm : Coherent m) (hi : m.inside a ≠ .idle) (hp : ¬ Parked (m.inside a)) :
    ∃ l n, spurious l = false ∧ Step cfg m l n := by
  have hin := hm.inCall a
  cases h : m.inside a with
  | idle => exact (hi h).elim
  | pushing e => exact push_moves hin (Or.inl h)
  | wokenNotFull e => exact push_moves hin (Or.inr h)
  | popping => exact pop_moves hin (Or.inl h)
  | wokenNotEmpty => exact pop_moves hin (Or.inr h)
  | parkedNotFull e => exact (hp (Or.inr ⟨e, h⟩)).elim
  | parkedNotEmpty => exact (hp (Or.inl h)).elim
  | shuttingDown =>
    rw [h] at hin
    cases a with
    | owner => exact ⟨_, _, rfl, .shutdown (.shutdown h)⟩
    | ingest | publish => exact hin.elim
  | owesNotEmpty =>
    by_cases hj : ∃ j, m.inside j = .parkedNotEmpty
    · obtain ⟨j, hj⟩ := hj
      exact ⟨_, _, rfl, .silent rfl (.notifyNotEmpty j h hj)⟩
    · exact ⟨_, _, rfl, .silent rfl (.notifyNotEmptyLost h (fun j he => hj ⟨j, he⟩))⟩
  | owesNotFull =>
    by_cases hj : ∃ j x, m.inside j = .parkedNotFull x
    · obtain ⟨j, x, hj⟩ := hj
      exact ⟨_, _, rfl, .silent rfl (.notifyNotFull j x h hj)⟩
    · exact ⟨_, _, rfl, .silent rfl (.notifyNotFullLost h (fun j x he => hj ⟨j, x, he⟩))⟩
  | owesAll => exact ⟨_, _, rfl, .silent rfl (.notifyAllNotFull h)⟩
  | owesAllNotEmpty => exact ⟨_, _, rfl, .silent rfl (.notifyAllNotEmpty h)⟩

/-- A wake-up in flight is a thread that is inside the queue and not parked. -/
theorem inFlight_inside {c : CV} (h : BoundedQueue.InFlight c m.monitor) :
    ∃ a, m.inside a ≠ .idle ∧ ¬ Parked (m.inside a) := by
  obtain ⟨a, h⟩ := h
  refine ⟨a, ?_, ?_⟩
  · intro hi
    cases c <;> simp [monitor, hi, CV.wakes, CV.wakesAll] at h
  · rintro (hp | ⟨e, hp⟩) <;> cases c <;> simp [monitor, hp, CV.wakes, CV.wakesAll] at h

/-- Where the pipeline's guard holds, the thread parked there has a wake-up on its way. -/
theorem parked_wakes (hm : Coherent m) (hc : Covered m.monitor) (hp : Parked (m.inside a))
    (h : IngestionPipeline.Step cfg m.pipeline a s) :
    ∃ b, m.inside b ≠ .idle ∧ ¬ Parked (m.inside b) := by
  have hin := hm.inCall a
  rcases hp with hp | ⟨e, hp⟩
  · rw [hp] at hin
    cases a with
    | owner | ingest => exact hin.elim
    | publish =>
      have hin : m.pipeline.publish = .atPop := hin
      have hready : m.pipeline.queue.canPop = true := by
        cases h <;> simp_all
      refine inFlight_inside (hc.inFlight (c := .notEmpty) (i := .publish) ?_ ?_)
      · simp [monitor, hp, CV.parked]
      · simpa [CV.ready, monitor, List.length_pos_iff] using BoundedQueue.canPop_iff.mp hready
  · rw [hp] at hin
    cases a with
    | owner | publish => exact hin.elim
    | ingest =>
      have hin : m.pipeline.ingest = .pushing e := hin
      have hready : m.pipeline.queue.canPush = true := by
        cases h <;> simp_all
      refine inFlight_inside (hc.inFlight (c := .notFull) (i := .ingest) ?_ ?_)
      · simp [monitor, hp, CV.parked]
      · simpa [CV.ready, monitor, Nat.sub_pos_iff_lt] using BoundedQueue.canPush_iff.mp hready

/-- Where the pipeline can move, so can the threads over the condition variables. -/
theorem machine_moves (hm : Coherent m) (hc : Covered m.monitor)
    (h : IngestionPipeline.Step cfg m.pipeline a s) :
    ∃ l n, spurious l = false ∧ Step cfg m l n := by
  by_cases hi : m.inside a = .idle
  · cases hq : queueCall m.pipeline a with
    | none => exact ⟨_, _, rfl, .pipeline hi hq h⟩
    | some p => exact ⟨_, _, rfl, .call hi hq⟩
  · by_cases hp : Parked (m.inside a)
    · obtain ⟨b, hb, hnp⟩ := parked_wakes hm hc hp h
      exact inside_moves hm hb hnp
    · exact inside_moves hm hi hp

/-- Actions a thread still owes inside the queue. One that is outside has a call left
for it, and a notification is worth the wake-ups it causes. -/
def insideRank : PC α → ℕ
  | .parkedNotFull _ | .parkedNotEmpty => 0
  | .pushing _ | .popping | .shuttingDown | .wokenNotFull _ | .wokenNotEmpty => 1
  | .idle => 2
  | .owesNotEmpty | .owesNotFull => 4
  | .owesAllNotEmpty => 5
  | .owesAll => 8

def callRank (f : Thread → PC α) : ℕ :=
  insideRank (f .owner) + insideRank (f .ingest) + insideRank (f .publish)

/-- An action of the pipeline pays for all that its thread does inside the queue. -/
def rank (m : Machine α) : ℕ := 8 * IngestionPipeline.rank m.pipeline + callRank m.inside

theorem insideRank_le (p : PC α) : insideRank p ≤ 8 := by
  cases p <;> simp [insideRank]

theorem insideRank_wakeNotFull (p : PC α) :
    insideRank (BoundedQueue.wakeNotFull p) ≤ insideRank p + 1 := by
  cases p <;> simp [insideRank, BoundedQueue.wakeNotFull]

theorem insideRank_wakeNotEmpty (p : PC α) :
    insideRank (BoundedQueue.wakeNotEmpty p) ≤ insideRank p + 1 := by
  cases p <;> simp [insideRank, BoundedQueue.wakeNotEmpty]

theorem callRank_update (f : Thread → PC α) (a : Thread) (p : PC α) :
    callRank (Function.update f a p) + insideRank (f a) = callRank f + insideRank p := by
  cases a <;> simp [callRank] <;> omega

/-- A `notify_all()` wakes at most the two other threads. -/
theorem callRank_notifyAll (w : PC α → PC α) (hw : ∀ p, insideRank (w p) ≤ insideRank p + 1) :
    callRank (Function.update (fun b => w (f b)) a p) + insideRank (f a) ≤
      callRank f + insideRank p + 2 := by
  have ho := hw (f .owner)
  have hi := hw (f .ingest)
  have hp := hw (f .publish)
  cases a <;> simp [callRank] <;> omega

/-- Every action inside the queue but a spurious wake-up uses up rank. -/
theorem callRank_silent {q r : BoundedQueue.State Thread α} {act : Action α}
    (h : BoundedQueue.Step q (a, act) r) (hs : silent act = true) :
    callRank r.pc + (!spurious (a, some act)).toNat ≤
      callRank q.pc + (spurious (a, some act)).toNat := by
  cases h with
  | @pushPark _ x hi _ =>
    have hu := callRank_update q.pc a (.parkedNotFull x)
    rcases hi with hi | hi <;> simp only [hi, insideRank] at hu <;>
      simp [BoundedQueue.State.setPC, spurious] <;> omega
  | popPark hi _ =>
    have hu := callRank_update q.pc a .parkedNotEmpty
    rcases hi with hi | hi <;> simp only [hi, insideRank] at hu <;>
      simp [BoundedQueue.State.setPC, spurious] <;> omega
  | notifyNotEmpty j hi hj =>
    have hij : a ≠ j := by
      rintro rfl
      simp [hi] at hj
    have hu := callRank_update q.pc j .wokenNotEmpty
    have hv := callRank_update (Function.update q.pc j .wokenNotEmpty) a .idle
    simp only [Function.update_of_ne hij, hi, hj, insideRank] at hu hv
    simp [BoundedQueue.State.setPC, spurious]
    omega
  | notifyNotFull j x hi hj =>
    have hij : a ≠ j := by
      rintro rfl
      simp [hi] at hj
    have hu := callRank_update q.pc j (.wokenNotFull x)
    have hv := callRank_update (Function.update q.pc j (.wokenNotFull x)) a .idle
    simp only [Function.update_of_ne hij, hi, hj, insideRank] at hu hv
    simp [BoundedQueue.State.setPC, spurious]
    omega
  | notifyNotEmptyLost hi | notifyNotFullLost hi =>
    have hu := callRank_update q.pc a .idle
    simp only [hi, insideRank] at hu
    simp [BoundedQueue.State.setPC, spurious]
    omega
  | notifyAllNotFull hi =>
    have hu := callRank_notifyAll (f := q.pc) (a := a) (p := .owesAllNotEmpty) _
      insideRank_wakeNotFull
    simp only [hi, insideRank] at hu
    simp [BoundedQueue.State.setPC, BoundedQueue.State.mapPC, spurious]
    omega
  | notifyAllNotEmpty hi =>
    have hu := callRank_notifyAll (f := q.pc) (a := a) (p := .idle) _ insideRank_wakeNotEmpty
    simp only [hi, insideRank] at hu
    simp [BoundedQueue.State.setPC, BoundedQueue.State.mapPC, spurious]
    omega
  | spuriousNotEmpty hi =>
    have hu := callRank_update q.pc a .wokenNotEmpty
    simp only [hi, insideRank] at hu
    simp [BoundedQueue.State.setPC, spurious]
    omega
  | @spuriousNotFull _ x hi =>
    have hu := callRank_update q.pc a (.wokenNotFull x)
    simp only [hi, insideRank] at hu
    simp [BoundedQueue.State.setPC, spurious]
    omega
  | _ => simp [silent] at hs

/-- A critical section leaves its thread with less than one action of the pipeline is worth. -/
theorem callRank_section (h : 1 ≤ insideRank (f a)) :
    callRank (Function.update f a p) ≤ callRank f + 7 := by
  have hu := callRank_update f a p
  have hp := insideRank_le p
  omega

theorem callRank_visible (h : Step cfg m l n) (hl : pipelineLabel l = some b) :
    callRank n.inside ≤ callRank m.inside + 7 := by
  cases h with
  | pipeline => exact Nat.le_add_right _ _
  | push hs =>
    cases hs with
    | pushTrue hi | pushFalse hi =>
      apply callRank_section (f := m.inside)
      rcases hi with hi | hi <;> rw [show m.inside .ingest = _ from hi] <;> exact le_rfl
  | pop hs =>
    cases hs with
    | popTrue hi | popFalse hi =>
      apply callRank_section (f := m.inside)
      rcases hi with hi | hi <;> rw [show m.inside .publish = _ from hi] <;> exact le_rfl
  | shutdown hs =>
    cases hs with
    | shutdown hi =>
      apply callRank_section (f := m.inside)
      rw [show m.inside .owner = _ from hi]
      exact le_rfl
  | call => cases hl
  | @silent a act _ hact _ => cases act <;> simp [silent] at hact <;> cases hl

theorem callRank_hidden (h : Step cfg m l n) (hl : pipelineLabel l = none) :
    callRank n.inside + (!spurious l).toNat ≤ callRank m.inside + (spurious l).toNat := by
  cases h with
  | @call a p hi hc =>
    have hu := callRank_update m.inside a p
    have hp : insideRank p = 1 := by
      obtain ⟨-, -, rfl⟩ | ⟨e, -, -, rfl⟩ | ⟨-, -, rfl⟩ := queueCall_cases hc <;> rfl
    rw [hi, hp] at hu
    simp [spurious, insideRank] at hu ⊢
    omega
  | silent hact hs => exact callRank_silent hs hact
  | pipeline | push | pop | shutdown => cases hl

/-- Once the source is stopped every action but a spurious wake-up uses up rank. -/
theorem rank_paid (hsrc : cfg.source.Obeys) (h : Step cfg m l n) (hm : Coherent m)
    (hs : Stopping m.pipeline) :
    rank n + (!spurious l).toNat ≤ rank m + (spurious l).toNat := by
  unfold rank
  cases hl : pipelineLabel l with
  | none =>
    have hle := callRank_hidden h hl
    rw [hidden_pipeline h hl]
    omega
  | some b =>
    have hlt := rank_step hsrc (section_step h hm hl) hs
    have hle := callRank_visible h hl
    have hone := Bool.toNat_le (!spurious l)
    omega

/-- The pipeline's invariants, seen from a machine that runs it. -/
theorem machine_invariants
    (h : Reachable (Step cfg) (initial cfg [.start, .requestStop, .stop]) m) :
    Coherent m ∧ Covered m.monitor ∧ Flow cfg m.pipeline ∧ Scripted m.pipeline ∧
      m.pipeline.queue.capacity = cfg.capacity := by
  obtain ⟨hp, hm⟩ := simulates_pipeline.reachable coherent_initial h
  obtain ⟨hf, hs, hc⟩ := shutdown_reachable hp
  have hq := (simulates_monitor.reachable coherent_initial h).1
  exact ⟨hm, BoundedQueue.covered_reachable hq, hf, hs, hc⟩

/-- Three threads that only a spurious wake-up can move: `stop()` waits for the ingest
thread, and the two workers are parked. -/
theorem only_spurious {e : α} (ho : m.pipeline.owner = .joinIngest)
    (hj : m.pipeline.ingestJoinable = true) (hi : m.pipeline.ingest = .pushing e)
    (hio : m.inside .owner = .idle) (hii : m.inside .ingest = .parkedNotFull e)
    (hip : m.inside .publish = .parkedNotEmpty) (h : Step cfg m l n) : spurious l = true := by
  cases h with
  | @pipeline a s hidle _ hs =>
    cases a with
    | owner => cases hs <;> simp_all
    | ingest => simp [hii] at hidle
    | publish => simp [hip] at hidle
  | @call a p hidle hc =>
    cases a with
    | owner => simp [queueCall, ho] at hc
    | ingest => simp [hii] at hidle
    | publish => simp [hip] at hidle
  | push hs => cases hs <;> simp_all [monitor, AtPush]
  | pop hs => cases hs <;> simp_all [monitor, AtPop]
  | shutdown hs => cases hs; simp_all [monitor]
  | @silent a act r hact hs =>
    have hpc : m.inside a = .idle ∨ Parked (m.inside a) := by
      cases a with
      | owner => exact Or.inl hio
      | ingest => exact Or.inr (Or.inr ⟨e, hii⟩)
      | publish => exact Or.inr (Or.inl hip)
    cases hs with
    | spuriousNotEmpty | spuriousNotFull => rfl
    | pushPark hi | popPark hi => rcases hi with hi | hi <;> simp_all [monitor, Parked]
    | _ => simp_all [monitor, Parked, silent]

/-- A full and empty queue parks both workers. -/
theorem Quiet.parks {e : α} (hm : Quiet m) (hi : m.pipeline.ingest = .pushing e)
    (hp : m.pipeline.publish = .atPop) (hfull : m.pipeline.queue.canPush = false)
    (hempty : m.pipeline.queue.canPop = false) :
    ∃ n, Reachable (Step cfg) m n ∧ n.pipeline = m.pipeline ∧ n.inside .owner = .idle ∧
      n.inside .ingest = .parkedNotFull e ∧ n.inside .publish = .parkedNotEmpty := by
  have h₁ : Reachable (Step cfg) m _ :=
    (Reachable.refl m).snoc (.call (p := .pushing e) (hm .ingest) (by simp only [queueCall, hi]))
  have h₂ := h₁.snoc (.silent rfl
    (.pushPark (i := .ingest) (x := e) (Or.inl (by simp [monitor])) hfull))
  have h₃ := h₂.snoc (.call (a := .publish) (p := .popping)
    (by simp [BoundedQueue.State.setPC, monitor, hm .publish]) (by simp only [queueCall, hp]))
  have h₄ := h₃.snoc (.silent rfl (.popPark (i := .publish) (Or.inl (by simp [monitor])) hempty))
  refine ⟨_, h₄, rfl, ?_, ?_, ?_⟩ <;> simp [BoundedQueue.State.setPC, monitor, hm .owner]

/-- With no slot at all the first event ends in three waits that nothing ends. -/
theorem parked_forever_reachable {e : α} (hcap : cfg.capacity = 0)
    (hy : cfg.source.mayReturn 0 false false (some e)) :
    ∃ m, Reachable (Step cfg) (initial cfg [.start, .requestStop, .stop]) m ∧
      ¬ Returned m.pipeline ∧ ∀ l n, Step cfg m l n → spurious l = true := by
  have h₁ : Reachable (IngestionPipeline.Step cfg)
      (IngestionPipeline.initial cfg [.start, .requestStop, .stop]) _ :=
    (Reachable.refl _).snoc (.start rfl rfl)
  have h₂ := h₁.snoc (.launchIngest rfl rfl)
  have h₃ := h₂.snoc (.launchPublish rfl rfl)
  have h₄ := h₃.snoc (.callNext rfl)
  have h₅ := h₄.snoc (.nextTrue (e := e) rfl hy)
  have h₆ := h₅.snoc (.countReceived rfl)
  have h₇ := h₆.snoc (.record rfl)
  have h₈ := h₇.snoc (.requestStop rfl rfl)
  have h₉ := h₈.snoc (.stop rfl rfl rfl)
  obtain ⟨m, hm, hs, hq⟩ := quiet_reachable h₉
  have ho : m.pipeline.owner = .joinIngest := by rw [hs]
  have hj : m.pipeline.ingestJoinable = true := by rw [hs]
  have hi : m.pipeline.ingest = .pushing e := by rw [hs]
  have hfull : m.pipeline.queue.canPush = false := by
    rw [hs]
    simp [IngestionPipeline.initial, BoundedQueue.new, BoundedQueue.canPush, hcap]
  obtain ⟨n, hn, hnm, hio, hii, hip⟩ := hq.parks hi (by rw [hs]) hfull (by rw [hs]; rfl)
  refine ⟨n, hm.trans hn, ?_, fun l k h => ?_⟩
  · rintro ⟨hidle, -⟩
    simp [hnm, ho] at hidle
  · exact only_spurious (hnm ▸ ho) (hnm ▸ hj) (hnm ▸ hi) hio hii hip h

/-- Over the condition variables too, all threads can end up waiting for good exactly
for capacity 0; otherwise, after `requestStop()`, `stop()` returns after a bounded
number of actions and one more for each spurious wake-up. -/
theorem waits_forever_iff_capacity_zero (cfg : Config α) (hsrc : cfg.source.Obeys)
    (hy : ∃ e, cfg.source.mayReturn 0 false false (some e)) :
    ((∃ m, Reachable (Step cfg) (initial cfg [.start, .requestStop, .stop]) m ∧
      ¬ Returned m.pipeline ∧ ∀ l n, Step cfg m l n → spurious l = true) ↔
        cfg.capacity = 0) ∧
    (1 ≤ cfg.capacity → ∀ m, Reachable (Step cfg) (initial cfg [.start, .requestStop, .stop]) m →
      .requestStop ∉ m.pipeline.script →
      Settles (Step cfg) spurious (fun m => Returned m.pipeline)
        (8 * stepsToReturn m.pipeline + 24) m) := by
  have hmoves : ∀ {m}, 1 ≤ m.pipeline.queue.capacity → Coherent m → Covered m.monitor →
      Flow cfg m.pipeline → Returned m.pipeline ∨ ∃ l n, spurious l = false ∧ Step cfg m l n := by
    intro m hcap hm hc hf
    rcases returned_or_moves hsrc hcap hf with h | ⟨a, s, h⟩
    · exact Or.inl h
    · exact Or.inr (machine_moves hm hc h)
  refine ⟨⟨?_, ?_⟩, ?_⟩
  · rintro ⟨m, hr, hn, hstuck⟩
    obtain ⟨hm, hc, hf, -, hcap⟩ := machine_invariants hr
    by_contra hne
    rcases hmoves (by omega) hm hc hf with h | ⟨l, n, hl, h⟩
    · exact hn h
    · simp [hstuck l n h] at hl
  · intro hcap
    obtain ⟨e, he⟩ := hy
    exact parked_forever_reachable hcap he
  · intro hcap m hr hreq
    obtain ⟨hm, hc, hf, hsc, hcap'⟩ := machine_invariants hr
    obtain ⟨hst, hle⟩ := hsc.stopping hf.control hreq
    have hrank : rank m ≤ 8 * stepsToReturn m.pipeline + 24 := by
      have ho := insideRank_le (m.inside .owner)
      have hi := insideRank_le (m.inside .ingest)
      have hp := insideRank_le (m.inside .publish)
      simp only [rank, callRank]
      omega
    refine settles_of_rank (I := fun m => Reachable (Step cfg)
      (initial cfg [.start, .requestStop, .stop]) m ∧ Stopping m.pipeline) rank ?_ ?_ ?_
      ⟨hr, hst⟩ hrank
    · rintro u l v ⟨hu, hs⟩ hstep
      refine ⟨hu.snoc hstep, ?_⟩
      cases hl : pipelineLabel l with
      | none => rwa [hidden_pipeline hstep hl]
      | some b => exact stopping_step (section_step hstep (machine_invariants hu).1 hl) hs
    · rintro u l v ⟨hu, hs⟩ hstep
      exact rank_paid hsrc hstep (machine_invariants hu).1 hs
    · rintro u ⟨hu, -⟩
      obtain ⟨hm, hc, hf, -, hcap'⟩ := machine_invariants hu
      exact hmoves (by omega) hm hc hf

/-- A one-event source: parked for good with capacity 0, and not with capacity 1. -/
theorem waits_forever_one_event :
    (∃ m : Machine ℕ, Reachable (Step ⟨0, .ofList [7], fun _ => true, false⟩)
      (initial ⟨0, .ofList [7], fun _ => true, false⟩ [.start, .requestStop, .stop]) m ∧
      ¬ Returned m.pipeline ∧
      ∀ l n, Step ⟨0, .ofList [7], fun _ => true, false⟩ m l n → spurious l = true) ∧
    ¬ ∃ m : Machine ℕ, Reachable (Step ⟨1, .ofList [7], fun _ => true, false⟩)
      (initial ⟨1, .ofList [7], fun _ => true, false⟩ [.start, .requestStop, .stop]) m ∧
      ¬ Returned m.pipeline ∧
      ∀ l n, Step ⟨1, .ofList [7], fun _ => true, false⟩ m l n → spurious l = true := by
  constructor
  · exact (waits_forever_iff_capacity_zero ⟨0, .ofList [7], fun _ => true, false⟩
      (Source.ofList_obeys [7]) ⟨7, Or.inl ⟨rfl, rfl⟩⟩).1.mpr rfl
  · intro h
    have := (waits_forever_iff_capacity_zero ⟨1, .ofList [7], fun _ => true, false⟩
      (Source.ofList_obeys [7]) ⟨7, Or.inl ⟨rfl, rfl⟩⟩).1.mp h
    simp at this

end TickForge.IngestionPipeline.Machine
