import TickForge.Lib.Population
import TickForge.BoundedQueue.Basic

/-! Wake-ups in flight, counted against items and free slots. -/
namespace TickForge.BoundedQueue

open Transition Population

/-- The two condition variables. -/
inductive CV where
  | notFull
  | notEmpty
  deriving DecidableEq, Repr

variable {ι α : Type*} [DecidableEq ι] {c : CV} {q : BoundedQueue α} {s t : State ι α}
  {i : ι} {p : PC α}

/-- Parked inside `wait` on the given condition variable. -/
def CV.parked : CV → PC α → Bool
  | .notFull, .parkedNotFull _ => true
  | .notEmpty, .parkedNotEmpty => true
  | _, _ => false

/-- A `notify_one()` on this condition variable not yet issued, or a thread woken
from it that does not hold the mutex yet. -/
def CV.wakes : CV → PC α → Bool
  | .notFull, .owesNotFull | .notFull, .wokenNotFull _ => true
  | .notEmpty, .owesNotEmpty | .notEmpty, .wokenNotEmpty => true
  | _, _ => false

/-- A `notify_all()` on this condition variable not yet issued. -/
def CV.wakesAll : CV → PC α → Bool
  | .notFull, .owesAll => true
  | .notEmpty, .owesAll | .notEmpty, .owesAllNotEmpty => true
  | _, _ => false

/-- How many waiters of this condition variable could proceed: items or free slots. -/
def CV.ready : CV → BoundedQueue α → ℕ
  | .notFull, q => q.capacity - q.queue.length
  | .notEmpty, q => q.queue.length

/-- A wake-up for the given condition variable is still in flight. -/
def InFlight (c : CV) (s : State ι α) : Prop :=
  ∃ j, c.wakes (s.pc j) = true ∨ c.wakesAll (s.pc j) = true

variable [Fintype ι]

/-- While a thread is parked, the wake-ups in flight cover everything it could
proceed with; after a shutdown the final `notify_all()` is still to come. -/
structure Covered (s : State ι α) : Prop where
  announced : ∀ i, CV.notEmpty.wakesAll (s.pc i) = true → s.q.shutDown = true
  running : s.q.shutDown = false → ∀ c i, CV.parked c (s.pc i) = true →
    c.ready s.q ≤ count c.wakes s.pc
  closing : s.q.shutDown = true → ∀ c i, CV.parked c (s.pc i) = true →
    ∃ j, c.wakesAll (s.pc j) = true

omit [DecidableEq ι] in
theorem covered_initial (capacity : ℕ) : Covered (initial ι capacity : State ι α) where
  announced i h := by simp [initial, CV.wakesAll] at h
  running _ c i h := by cases c <;> simp [initial, CV.parked] at h
  closing h := by simp [initial, new] at h

/-- One thread moves. While the queue is open it parks only where nothing is
ready, and takes at most what its own wake-up covers unless nobody waits. -/
theorem Covered.move {r : BoundedQueue α} (h : Covered s)
    (hall : CV.notEmpty.wakesAll p = true → r.shutDown = true)
    (hmono : s.q.shutDown = true → r.shutDown = true)
    (hrun : r.shutDown = false → ∀ c : CV, c.ready r = 0 ∨ (c.parked p = false ∧
      ((∀ k, c.parked (s.pc k) = false) ∨
        c.ready r + (c.wakes (s.pc i)).toNat ≤ c.ready s.q + (c.wakes p).toNat)))
    (hclose : r.shutDown = true → ∀ c : CV, c.parked p = false ∧ (c.wakesAll p = true ∨
      (s.q.shutDown = true ∧ c.wakesAll (s.pc i) = false))) :
    Covered ((s.setQ r).setPC i p) where
  announced k hk := by
    by_cases hki : k = i
    · subst k
      exact hall (by simpa [State.setPC] using hk)
    · exact hmono (h.announced k (by simpa [State.setPC, State.setQ, hki] using hk))
  running hr c k hk := by
    have hs : s.q.shutDown = false := by
      cases hs : s.q.shutDown with
      | false => rfl
      | true => exact (hmono hs).symm.trans hr
    have hcount := count_update c.wakes s.pc i p
    rcases hrun hr c with hzero | ⟨hp, hle⟩
    · exact hzero ▸ Nat.zero_le _
    · have hki : k ≠ i := by
        intro hki
        subst k
        simp [State.setPC, hp] at hk
      have hpk : c.parked (s.pc k) = true := by simpa [State.setPC, State.setQ, hki] using hk
      rcases hle with hnone | hle
      · simp [hnone k] at hpk
      · have hold := h.running hs c k hpk
        change c.ready r ≤ count c.wakes (Function.update s.pc i p)
        omega
  closing hr c k hk := by
    obtain ⟨hp, hw⟩ := hclose hr c
    have hki : k ≠ i := by
      intro hki
      subst k
      simp [State.setPC, hp] at hk
    rcases hw with hw | ⟨hs, hi⟩
    · exact ⟨i, by simpa [State.setPC] using hw⟩
    · obtain ⟨j, hj⟩ := h.closing hs c k (by simpa [State.setPC, State.setQ, hki] using hk)
      have hji : j ≠ i := by
        intro hji
        subst j
        simp [hi] at hj
      exact ⟨j, by simpa [State.setPC, State.setQ, hji] using hj⟩

/-- A `notify_one()` that finds a waiter turns the notifier's debt into a woken thread. -/
theorem Covered.handOver {j : ι} {w : PC α} (h : Covered s) (hij : j ≠ i)
    (hw : ∀ c : CV, (c.wakes w).toNat = (c.wakes (s.pc j)).toNat + (c.wakes (s.pc i)).toNat)
    (hp : ∀ c : CV, c.parked w = false)
    (ha : ∀ c : CV, c.wakesAll w = false ∧ c.wakesAll (s.pc i) = false ∧
      c.wakesAll (s.pc j) = false) :
    Covered ((s.setPC j w).setPC i .idle) := by
  have hidle : ∀ c : CV, c.parked (.idle : PC α) = false ∧ c.wakes (.idle : PC α) = false ∧
      c.wakesAll (.idle : PC α) = false := by
    intro c
    cases c <;> exact ⟨rfl, rfl, rfl⟩
  have hkeep : ∀ k, k ≠ i → k ≠ j → ((s.setPC j w).setPC i .idle).pc k = s.pc k := by
    intro k hki hkj
    simp [State.setPC, hki, hkj]
  have hother : ∀ (c : CV) k, c.parked (((s.setPC j w).setPC i .idle).pc k) = true →
      k ≠ i ∧ k ≠ j := by
    intro c k hk
    constructor
    · intro hki
      subst k
      simp [State.setPC, hidle] at hk
    · intro hkj
      subst k
      simp [State.setPC, hij, hp] at hk
  refine ⟨?_, ?_, ?_⟩
  · intro k hk
    have hki : k ≠ i := by
      intro hki
      subst k
      simp [State.setPC, hidle] at hk
    have hkj : k ≠ j := by
      intro hkj
      subst k
      simp [State.setPC, hij, (ha .notEmpty).1] at hk
    exact h.announced k (by rwa [hkeep k hki hkj] at hk)
  · intro hr c k hk
    obtain ⟨hki, hkj⟩ := hother c k hk
    have hold := h.running hr c k (by rwa [hkeep k hki hkj] at hk)
    have hfst := count_update c.wakes s.pc j w
    have hsnd := count_update c.wakes (Function.update s.pc j w) i .idle
    rw [Function.update_of_ne (Ne.symm hij), (hidle c).2.1] at hsnd
    have := hw c
    change c.ready s.q ≤ count c.wakes (Function.update (Function.update s.pc j w) i .idle)
    simp only [Bool.toNat_false] at hsnd
    omega
  · intro hr c k hk
    obtain ⟨hki, hkj⟩ := hother c k hk
    obtain ⟨l, hl⟩ := h.closing hr c k (by rwa [hkeep k hki hkj] at hk)
    have hli : l ≠ i := by
      intro hli
      subst l
      simp [ha] at hl
    have hlj : l ≠ j := by
      intro hlj
      subst l
      simp [ha] at hl
    exact ⟨l, by rwa [hkeep l hli hlj]⟩

/-- Both `notify_all()` calls belong to a `shutdown()` that has already set the flag. -/
theorem Covered.notifyAllNotFull (h : Covered s) (hi : s.pc i = .owesAll) :
    Covered ((s.mapPC wakeNotFull).setPC i .owesAllNotEmpty) := by
  have hs : s.q.shutDown = true := h.announced i (by simp [hi, CV.wakesAll])
  refine ⟨fun _ _ => hs, fun hr => by simp [State.setPC, State.mapPC, hs] at hr, ?_⟩
  intro _ c k hk
  cases c with
  | notEmpty => exact ⟨i, by simp [State.setPC, CV.wakesAll]⟩
  | notFull =>
    by_cases hki : k = i
    · subst k
      simp [State.setPC, CV.parked] at hk
    · cases hpc : s.pc k <;> simp [State.setPC, State.mapPC, hki, hpc, wakeNotFull, CV.parked] at hk

theorem Covered.notifyAllNotEmpty (h : Covered s) (hi : s.pc i = .owesAllNotEmpty) :
    Covered ((s.mapPC wakeNotEmpty).setPC i .idle) := by
  have hs : s.q.shutDown = true := h.announced i (by simp [hi, CV.wakesAll])
  refine ⟨fun _ _ => hs, fun hr => by simp [State.setPC, State.mapPC, hs] at hr, ?_⟩
  intro _ c k hk
  have hki : k ≠ i := by
    intro hki
    subst k
    cases c <;> simp [State.setPC, CV.parked] at hk
  cases hpc : s.pc k <;>
    cases c <;> simp [State.setPC, State.mapPC, hki, hpc, wakeNotEmpty, CV.parked] at hk
  -- Only a `push()` is still parked, and its wake-up is owed by another `shutdown()`.
  obtain ⟨j, hj⟩ := h.closing hs .notFull k (by simp [hpc, CV.parked])
  have hji : j ≠ i := by
    intro hji
    subst j
    simp [hi, CV.wakesAll] at hj
  refine ⟨j, ?_⟩
  cases hpj : s.pc j <;> simp_all [State.setPC, State.mapPC, wakeNotEmpty, CV.wakesAll]

omit [DecidableEq ι] [Fintype ι] in
theorem atPush_pc {x : α} (h : AtPush x (s.pc i)) :
    CV.notEmpty.wakes (s.pc i) = false ∧ (∀ c : CV, c.wakesAll (s.pc i) = false) := by
  rcases h with h | h <;> rw [h] <;> exact ⟨rfl, fun c => by cases c <;> rfl⟩

omit [DecidableEq ι] [Fintype ι] in
theorem atPop_pc (h : AtPop (s.pc i)) :
    CV.notFull.wakes (s.pc i) = false ∧ (∀ c : CV, c.wakesAll (s.pc i) = false) := by
  rcases h with h | h <;> rw [h] <;> exact ⟨rfl, fun c => by cases c <;> rfl⟩

/-- Moves that leave the queue alone: calls, spurious wake-ups and lost notifies. -/
theorem Covered.relabel (h : Covered s) (hp : ∀ c : CV, c.parked p = false)
    (hw : ∀ c : CV, (∀ k, c.parked (s.pc k) = false) ∨
      (c.wakes (s.pc i)).toNat ≤ (c.wakes p).toNat)
    (ha : ∀ c : CV, c.wakesAll p = false ∧ c.wakesAll (s.pc i) = false) :
    Covered (s.setPC i p) := by
  apply h.move (r := s.q)
  · simp [ha]
  · exact id
  · intro _ c
    refine Or.inr ⟨hp c, ?_⟩
    rcases hw c with hn | hle
    · exact Or.inl hn
    · exact Or.inr (Nat.add_le_add_left hle _)
  · intro hr c
    exact ⟨hp c, Or.inr ⟨hr, (ha c).2⟩⟩

/-- A `push()` that parks has found the queue full. -/
theorem Covered.pushPark {x : α} (hs : Covered s) (hi : AtPush x (s.pc i))
    (hc : s.q.canPush = false) : Covered (s.setPC i (.parkedNotFull x)) := by
  obtain ⟨hfull, hopen⟩ := canPush_false.mp hc
  obtain ⟨hw, ha⟩ := atPush_pc hi
  apply hs.move (r := s.q)
  · simp [CV.wakesAll]
  · exact id
  · intro _ c
    cases c with
    | notFull => exact Or.inl (Nat.sub_eq_zero_of_le hfull)
    | notEmpty => exact Or.inr ⟨rfl, Or.inr (by rw [hw]; exact Nat.le_add_right _ _)⟩
  · simp [hopen]

/-- A `push()` takes one slot, and owes one wake-up for its item. -/
theorem Covered.push {x : α} {r : BoundedQueue α} (hs : Covered s) (hi : AtPush x (s.pc i))
    (hc : s.q.canPush = true) (hp : s.q.push x = (true, r)) :
    Covered ((s.setQ r).setPC i .owesNotEmpty) := by
  obtain ⟨hopen, hopen', hq, hcap, -⟩ := push_true hp
  have hroom := room_of_push hc hp
  obtain ⟨hw, ha⟩ := atPush_pc hi
  apply hs.move
  · simp [CV.wakesAll]
  · simp [hopen]
  · intro _ c
    refine Or.inr ⟨by cases c <;> rfl, Or.inr ?_⟩
    cases c with
    | notFull =>
      have hle := Bool.toNat_le (CV.notFull.wakes (s.pc i))
      generalize (CV.notFull.wakes (s.pc i)).toNat = n at hle ⊢
      simp only [CV.ready, hq, hcap, List.length_append, List.length_singleton]
      omega
    | notEmpty =>
      rw [hw]
      simp [CV.ready, hq, CV.wakes]
  · simp [hopen']

/-- A `pop()` that parks has found the queue empty. -/
theorem Covered.popPark (hs : Covered s) (hi : AtPop (s.pc i)) (hc : s.q.canPop = false) :
    Covered (s.setPC i .parkedNotEmpty) := by
  obtain ⟨hempty, hopen⟩ := canPop_false.mp hc
  obtain ⟨hw, ha⟩ := atPop_pc hi
  apply hs.move (r := s.q)
  · simp [CV.wakesAll]
  · exact id
  · intro _ c
    cases c with
    | notFull => exact Or.inr ⟨rfl, Or.inr (by rw [hw]; exact Nat.le_add_right _ _)⟩
    | notEmpty => exact Or.inl (by simp [CV.ready, hempty])
  · simp [hopen]

/-- A `pop()` takes one item, and owes one wake-up for its slot. -/
theorem Covered.pop {x : α} {r : BoundedQueue α} (hs : Covered s) (hi : AtPop (s.pc i))
    (hp : s.q.pop = (some x, r)) : Covered ((s.setQ r).setPC i .owesNotFull) := by
  obtain ⟨hq, hsd, hcap, -⟩ := pop_some hp
  obtain ⟨hw, ha⟩ := atPop_pc hi
  apply hs.move
  · simp [CV.wakesAll]
  · exact fun hd => hsd.trans hd
  · intro _ c
    refine Or.inr ⟨by cases c <;> rfl, Or.inr ?_⟩
    cases c with
    | notFull =>
      rw [hw]
      simp only [CV.ready, CV.wakes, hq, hcap, List.length_cons, Bool.toNat_false,
        Bool.toNat_true]
      omega
    | notEmpty =>
      have hle := Bool.toNat_le (CV.notEmpty.wakes (s.pc i))
      generalize (CV.notEmpty.wakes (s.pc i)).toNat = n at hle ⊢
      simp only [CV.ready, hq, List.length_cons]
      omega
  · intro hr c
    exact ⟨by cases c <;> rfl, Or.inr ⟨hsd.symm.trans hr, ha c⟩⟩

/-- A call that returns false has found the queue shut down. -/
theorem Covered.refuse (hs : Covered s) (hd : s.q.shutDown = true)
    (ha : ∀ c : CV, c.wakesAll (s.pc i) = false) : Covered ((s.setQ s.q).setPC i .idle) := by
  apply hs.move
  · simp [CV.wakesAll]
  · exact id
  · simp [hd]
  · intro _ c
    exact ⟨by cases c <;> rfl, Or.inr ⟨hd, ha c⟩⟩

theorem covered_step {a : Action α} (h : Step s (i, a) t) (hs : Covered s) : Covered t := by
  cases h with
  | callPush _ hi | callPop hi | callShutdown hi =>
    apply hs.relabel <;> intro c <;> cases c <;> simp [hi, CV.parked, CV.wakes, CV.wakesAll]
  | pushPark hi hc => exact hs.pushPark hi hc
  | pushTrue hi hc hp => exact hs.push hi hc hp
  | pushFalse hi hc hp =>
    obtain ⟨hd, rfl⟩ := push_false hp
    exact hs.refuse hd (atPush_pc hi).2
  | popPark hi hc => exact hs.popPark hi hc
  | popTrue hi hc hp => exact hs.pop hi hp
  | popFalse hi hc hp =>
    have hd := shutDown_of_pop_none hc hp
    obtain ⟨-, rfl⟩ := pop_none hp
    exact hs.refuse hd (atPop_pc hi).2
  | shutdown hi =>
    apply hs.move
    · intro _; rfl
    · intro _; rfl
    · intro hr; simp [BoundedQueue.shutdown] at hr
    · intro _ c
      exact ⟨by cases c <;> rfl, Or.inl (by cases c <;> rfl)⟩
  | notifyNotEmpty j hi hj =>
    apply hs.handOver (by rintro rfl; simp [hi] at hj) <;> intro c <;> cases c <;>
      simp [hi, hj, CV.parked, CV.wakes, CV.wakesAll]
  | notifyNotFull j x hi hj =>
    apply hs.handOver (by rintro rfl; simp [hi] at hj) <;> intro c <;> cases c <;>
      simp [hi, hj, CV.parked, CV.wakes, CV.wakesAll]
  | notifyNotEmptyLost hi hn =>
    apply hs.relabel <;> intro c <;> cases c <;> simp [hi, CV.parked, CV.wakes, CV.wakesAll]
    intro k
    cases hk : s.pc k <;> simp_all
  | notifyNotFullLost hi hn =>
    apply hs.relabel <;> intro c <;> cases c <;> simp [hi, CV.parked, CV.wakes, CV.wakesAll]
    intro k
    cases hk : s.pc k <;> simp_all
  | notifyAllNotFull hi => exact hs.notifyAllNotFull hi
  | notifyAllNotEmpty hi => exact hs.notifyAllNotEmpty hi
  | spuriousNotEmpty hi | spuriousNotFull hi =>
    apply hs.relabel <;> intro c <;> cases c <;> simp [hi, CV.parked, CV.wakes, CV.wakesAll]
  | size | highWaterMark => exact hs

theorem covered_reachable {capacity : ℕ} (h : Reachable Step (initial ι capacity) s) :
    Covered s :=
  h.invariant (covered_initial capacity) fun ht hstep => covered_step hstep ht

omit [DecidableEq ι] in
/-- A parked thread whose condition holds always has a wake-up on its way. -/
theorem Covered.inFlight (h : Covered s) (hp : c.parked (s.pc i) = true)
    (hr : 0 < c.ready s.q ∨ s.q.shutDown = true) : InFlight c s := by
  cases hd : s.q.shutDown with
  | false =>
    have hpos : 0 < count c.wakes s.pc := by
      have hle := h.running hd c i hp
      rcases hr with hr | hr
      · omega
      · simp [hd] at hr
    obtain ⟨j, hj⟩ := exists_of_count_pos hpos
    exact ⟨j, Or.inl hj⟩
  | true =>
    obtain ⟨j, hj⟩ := h.closing hd c i hp
    exact ⟨j, Or.inr hj⟩

/-- No interleaving loses a wake-up, whoever steals the item or the slot. -/
theorem no_lost_wakeup (capacity : ℕ) {s : State ι α}
    (h : Reachable Step (initial ι capacity) s) :
    (∀ i, s.pc i = .parkedNotEmpty → s.q.queue ≠ [] ∨ s.q.shutDown = true →
      InFlight .notEmpty s) ∧
    (∀ i x, s.pc i = .parkedNotFull x →
      s.q.queue.length < s.q.capacity ∨ s.q.shutDown = true → InFlight .notFull s) := by
  have hc := covered_reachable h
  constructor
  · intro i hi hr
    apply hc.inFlight (i := i) (by simp [hi, CV.parked])
    simpa [CV.ready, List.length_pos_iff] using hr
  · intro i x hi hr
    apply hc.inFlight (i := i) (by simp [hi, CV.parked])
    simpa [CV.ready, Nat.sub_pos_iff_lt] using hr

/-- A consumer parked on an empty queue, just after a producer left its critical section. -/
theorem no_lost_wakeup_parked_consumer :
    ∃ s : State (Fin 2) ℕ, Reachable Step (initial (Fin 2) 1) s ∧ s.pc 0 = .parkedNotEmpty ∧
      s.q.queue = [5] ∧ InFlight .notEmpty s := by
  have h₁ : Reachable Step (initial (Fin 2) 1 : State (Fin 2) ℕ) _ :=
    (Reachable.refl _).snoc (Step.callPop (i := 0) rfl)
  have h₂ := h₁.snoc (Step.popPark (i := 0) (Or.inl rfl) rfl)
  have h₃ := h₂.snoc (Step.callPush (i := 1) 5 rfl)
  have h₄ := h₃.snoc (Step.pushTrue (i := 1) (Or.inl rfl) rfl rfl)
  exact ⟨_, h₄, rfl, rfl, (no_lost_wakeup 1 h₄).1 0 rfl (Or.inl (by decide))⟩

end TickForge.BoundedQueue
