import TickForge.BoundedQueue.Basic

/-! The queue as a FIFO channel. Threads, waits and notifies are erased first. -/
namespace TickForge.BoundedQueue

open Transition

variable {ι α : Type*} {q r : BoundedQueue α} {a : Action α} {x : α} {as bs : List (Action α)}

/-- Actions that leave the guarded members alone. -/
def Action.Quiet : Action α → Prop
  | .push _ _ | .pop _ | .shutdown => False
  | _ => True

/-- The queue alone: one label per critical section, waits as guards. -/
inductive Section : BoundedQueue α → Action α → BoundedQueue α → Prop where
  | push {q r : BoundedQueue α} {x : α} {b : Bool} :
      q.canPush = true → q.push x = (b, r) → Section q (.push x b) r
  | pop {q r : BoundedQueue α} {o : Option α} :
      q.canPop = true → q.pop = (o, r) → Section q (.pop o) r
  | shutdown {q : BoundedQueue α} : Section q .shutdown q.shutdown
  | quiet {q : BoundedQueue α} {a : Action α} : a.Quiet → Section q a q

/-- Every thread action is at most one critical section of the queue. -/
theorem step_section [DecidableEq ι] {s t : State ι α} {i : ι} (h : Step s (i, a) t) :
    Section s.q a t.q := by
  cases h with
  | pushTrue _ hc hp | pushFalse _ hc hp => exact .push hc hp
  | popTrue _ hc hp | popFalse _ hc hp => exact .pop hc hp
  | shutdown _ => exact .shutdown
  | _ => exact .quiet trivial

theorem trace_section [DecidableEq ι] {s t : State ι α} {xs : List (ι × Action α)}
    (h : Trace Step s xs t) : Trace Section s.q (xs.map Prod.snd) t.q := by
  induction h with
  | refl => exact .refl
  | snoc _ hs ih =>
    rw [List.map_append]
    exact .snoc ih (step_section hs)

def Action.acceptedItem : Action α → Option α
  | .push x true => some x
  | _ => none

def Action.rejectedItem : Action α → Option α
  | .push x false => some x
  | _ => none

def Action.deliveredItem : Action α → Option α
  | .pop o => o
  | _ => none

/-- Items of the `push()` calls that returned true, in critical-section order. -/
def accepted (as : List (Action α)) : List α := as.filterMap Action.acceptedItem

/-- Items of the `push()` calls that returned false. -/
def rejected (as : List (Action α)) : List α := as.filterMap Action.rejectedItem

/-- Items handed out by the `pop()` calls that returned true, in critical-section order. -/
def delivered (as : List (Action α)) : List α := as.filterMap Action.deliveredItem

@[simp] theorem accepted_snoc : accepted (as ++ [a]) = accepted as ++ a.acceptedItem.toList := by
  cases h : a.acceptedItem <;> simp [accepted, h]

@[simp] theorem delivered_snoc :
    delivered (as ++ [a]) = delivered as ++ a.deliveredItem.toList := by
  cases h : a.deliveredItem <;> simp [delivered, h]

theorem Action.Quiet.items (h : a.Quiet) : a.acceptedItem = none ∧ a.deliveredItem = none := by
  cases a <;> simp_all [Action.Quiet, Action.acceptedItem, Action.deliveredItem]

/-- One critical section moves the two histories and the contents together. -/
theorem section_fifo (h : Section q a r) :
    q.queue ++ a.acceptedItem.toList = a.deliveredItem.toList ++ r.queue := by
  cases h with
  | @push _ x b _ hp =>
    cases b with
    | true => simp [Action.acceptedItem, Action.deliveredItem, (push_true hp).2.2.1]
    | false => simp [Action.acceptedItem, Action.deliveredItem, (push_false hp).2]
  | @pop _ o _ hp =>
    cases o with
    | some x => simp [Action.acceptedItem, Action.deliveredItem, (pop_some hp).1]
    | none => simp [Action.acceptedItem, Action.deliveredItem, pop_none hp]
  | shutdown => simp [Action.acceptedItem, Action.deliveredItem, BoundedQueue.shutdown]
  | quiet hq => simp [hq.items]

theorem trace_fifo (h : Trace Section q as r) :
    q.queue ++ accepted as = delivered as ++ r.queue := by
  induction h with
  | refl => simp [accepted, delivered]
  | snoc _ hs ih =>
    rw [accepted_snoc, delivered_snoc, ← List.append_assoc, ih, List.append_assoc, section_fifo hs,
      List.append_assoc]

/-- `shutdown_` is never cleared. -/
theorem section_shutDown (h : Section q a r) (hq : q.shutDown = true) : r.shutDown = true := by
  cases h with
  | @push _ x b _ hp =>
    cases b with
    | true => simp [(push_true hp).1] at hq
    | false => simpa [(push_false hp).2] using hq
  | @pop _ o _ hp =>
    cases o with
    | some x => exact (pop_some hp).2.1.trans hq
    | none => simpa [(pop_none hp).2] using hq
  | shutdown => rfl
  | quiet => exact hq

theorem no_push_of_shutDown (h : Trace Section q as r) (hq : q.shutDown = true) :
    r.shutDown = true ∧ ∀ x, .push x true ∉ as := by
  induction h with
  | refl => simpa using hq
  | snoc _ hs ih =>
    refine ⟨section_shutDown hs ih.1, ?_⟩
    intro x hx
    rcases List.mem_append.mp hx with hx | hx
    · exact ih.2 x hx
    · cases List.mem_singleton.mp hx
      cases hs with
      | push _ hp => simp [(push_true hp).1] at ih
      | quiet h => exact h

/-- Shut down and drained is the state in which every call returns false. -/
theorem no_pop_of_drained (h : Trace Section q as r) (hs : q.shutDown = true)
    (hq : q.queue = []) : ∀ x, .pop (some x) ∉ as := by
  intro x hx
  have ha : accepted as = [] := by
    apply List.filterMap_eq_nil_iff.mpr
    intro a ha
    cases a with
    | push y b =>
      cases b with
      | true => exact ((no_push_of_shutDown h hs).2 y ha).elim
      | false => rfl
    | _ => rfl
  have hd : delivered as = [] := by
    have := trace_fifo h
    simp only [hq, ha, List.append_nil] at this
    exact (List.append_eq_nil_iff.mp this.symm).1
  have hm : x ∈ delivered as := List.mem_filterMap.mpr ⟨_, hx, rfl⟩
  simp [hd] at hm

/-- The channel contract in one place: conservation and order, refusal after
`shutdown()`, draining, and the final state. Labels are critical sections, so a
call that was parked when the shutdown came is covered by its own later label. -/
theorem fifo_drain_then_stop [DecidableEq ι] (capacity : ℕ) {xs : List (ι × Action α)}
    {s : State ι α} (h : Trace Step (initial ι capacity) xs s) :
    accepted (xs.map Prod.snd) = delivered (xs.map Prod.snd) ++ s.q.queue ∧
    (∀ x ∈ rejected (xs.map Prod.snd), x ∉ accepted (xs.map Prod.snd) →
      x ∉ delivered (xs.map Prod.snd)) ∧
    (∀ ys zs i, xs = ys ++ (i, .shutdown) :: zs → ∀ j x, (j, .push x true) ∉ zs) ∧
    (∀ (i : ι) (t u : State ι α), Reachable Step (initial ι capacity) t → Step t (i, .pop none) u →
      t.q.shutDown = true ∧ t.q.queue = []) ∧
    (∀ ys zs i, xs = ys ++ (i, .pop none) :: zs →
      ∀ j x, (j, .push x true) ∉ zs ∧ (j, .pop (some x)) ∉ zs) := by
  have hf : accepted (xs.map Prod.snd) = delivered (xs.map Prod.snd) ++ s.q.queue :=
    trace_fifo (trace_section h)
  refine ⟨hf, ?_, ?_, ?_, ?_⟩
  · intro x _ hn hd
    exact hn (hf ▸ List.mem_append_left _ hd)
  · rintro ys zs i rfl j x hx
    obtain ⟨t, u, -, hs, hz⟩ := h.at_label
    cases hs
    exact (no_push_of_shutDown (trace_section hz) rfl).2 x (List.mem_map_of_mem hx)
  · rintro i t u - hs
    cases hs with
    | popFalse _ hc hp => exact ⟨shutDown_of_pop_none hc hp, (pop_none hp).1⟩
  · rintro ys zs i rfl j x
    obtain ⟨t, u, -, hs, hz⟩ := h.at_label
    cases hs with
    | popFalse _ hc hp =>
      obtain ⟨hq, rfl⟩ := pop_none hp
      have hd := shutDown_of_pop_none hc hp
      have hz' := trace_section hz
      exact ⟨fun hx => (no_push_of_shutDown hz' hd).2 x (List.mem_map_of_mem hx),
        fun hx => no_pop_of_drained hz' hd hq x (List.mem_map_of_mem hx)⟩

/-- A full queue, a blocked producer, a shutdown, a refused item and a complete drain. -/
theorem fifo_drain_then_stop_blocked_push :
    ∃ (xs : List (Fin 2 × Action ℕ)) (s : State (Fin 2) ℕ),
      Trace Step (initial (Fin 2) 1) xs s ∧ rejected (xs.map Prod.snd) = [8] ∧
      delivered (xs.map Prod.snd) = [7] ∧
      accepted (xs.map Prod.snd) = delivered (xs.map Prod.snd) ++ s.q.queue := by
  have h₁ : Trace Step (initial (Fin 2) 1 : State (Fin 2) ℕ) _ _ :=
    Trace.refl.snoc (Step.callPush (i := 0) 7 rfl)
  have h₂ := h₁.snoc (Step.pushTrue (i := 0) (Or.inl rfl) rfl rfl)
  have h₃ := h₂.snoc (Step.notifyNotEmptyLost (i := 0) rfl (by decide))
  have h₄ := h₃.snoc (Step.callPush (i := 1) 8 rfl)
  have h₅ := h₄.snoc (Step.pushPark (i := 1) (Or.inl rfl) rfl)
  have h₆ := h₅.snoc (Step.callShutdown (i := 0) rfl)
  have h₇ := h₆.snoc (Step.shutdown (i := 0) rfl)
  have h₈ := h₇.snoc (Step.notifyAllNotFull (i := 0) rfl)
  have h₉ := h₈.snoc (Step.pushFalse (i := 1) (Or.inr rfl) rfl rfl)
  have h₁₀ := h₉.snoc (Step.callPop (i := 1) rfl)
  have h₁₁ := h₁₀.snoc (Step.popTrue (i := 1) (Or.inl rfl) rfl rfl)
  exact ⟨_, _, h₁₁, rfl, rfl, (fifo_drain_then_stop 1 h₁₁).1⟩

end TickForge.BoundedQueue
