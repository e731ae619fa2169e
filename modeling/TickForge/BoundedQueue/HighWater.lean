import TickForge.BoundedQueue.Fifo

/-! The high-water mark as a history maximum. -/
namespace TickForge.BoundedQueue

open Transition

variable {ι α : Type*} {q r : BoundedQueue α} {a : Action α} {capacity : ℕ}

/-- What the mark promises in a single state. -/
structure Bounded (capacity : ℕ) (q : BoundedQueue α) : Prop where
  capacity : q.capacity = capacity
  size : q.size ≤ q.highWaterMark
  mark : q.highWaterMark ≤ q.capacity

theorem bounded_new : Bounded capacity (new capacity : BoundedQueue α) :=
  ⟨rfl, Nat.le_refl _, Nat.zero_le _⟩

/-- All that a critical section can do to the size and the mark: an accepted `push()` finds
room and raises both, anything else leaves the mark alone. -/
theorem section_cases (h : Section q a r) :
    (∃ x, a = .push x true ∧ q.size < q.capacity ∧ r.capacity = q.capacity ∧
      r.size = q.size + 1 ∧ r.highWaterMark = max q.highWaterMark (q.size + 1)) ∨
    ((∀ x, a ≠ .push x true) ∧ r.capacity = q.capacity ∧ r.size ≤ q.size ∧
      r.highWaterMark = q.highWaterMark) := by
  cases h with
  | @push _ x b hc hp =>
    cases b with
    | true =>
      left
      obtain ⟨-, -, hq, hcap, hmark⟩ := push_true hp
      exact ⟨x, rfl, room_of_push hc hp, hcap, by simp [size, hq], hmark⟩
    | false =>
      right
      obtain ⟨-, rfl⟩ := push_false hp
      exact ⟨by simp, rfl, Nat.le_refl _, rfl⟩
  | @pop _ o _ hp =>
    right
    cases o with
    | some x =>
      obtain ⟨hq, -, hcap, hmark⟩ := pop_some hp
      exact ⟨by simp, hcap, by simp [size, hq], hmark⟩
    | none =>
      obtain ⟨-, rfl⟩ := pop_none hp
      exact ⟨by simp, rfl, Nat.le_refl _, rfl⟩
  | shutdown => exact Or.inr ⟨by simp, rfl, Nat.le_refl _, rfl⟩
  | quiet hquiet =>
    refine Or.inr ⟨?_, rfl, Nat.le_refl _, rfl⟩
    rintro x rfl
    exact hquiet

/-- One critical section raises the mark to the new size and no further. -/
theorem section_mark (h : Section q a r) (hq : q.size ≤ q.highWaterMark) :
    r.highWaterMark = max q.highWaterMark r.size := by
  obtain ⟨x, -, -, -, hsize, hmark⟩ | ⟨-, -, hsize, hmark⟩ := section_cases h
  · rw [hmark, hsize]
  · omega

theorem bounded_section (h : Section q a r) (hq : Bounded capacity q) : Bounded capacity r := by
  obtain ⟨hcap, hsize, hmark⟩ := hq
  obtain ⟨x, -, hroom, hcap', hsize', hmark'⟩ | ⟨-, hcap', hsize', hmark'⟩ := section_cases h
  · exact ⟨hcap'.trans hcap, by omega, by omega⟩
  · exact ⟨hcap'.trans hcap, by omega, by omega⟩

section

variable [DecidableEq ι] {s t : State ι α} {vs : List (State ι α)} {i : ι}

theorem bounded_reachable (h : Reachable Step (initial ι capacity) s) : Bounded capacity s.q :=
  h.invariant (P := fun s => Bounded capacity s.q) bounded_new
    fun ht hs => bounded_section (step_section hs) ht

/-- The mark is the largest size of any state so far, the present one included. -/
theorem highWaterMark_isGreatest (h : Visits Step (initial ι capacity) vs s) :
    IsGreatest ((fun v : State ι α => v.q.size) '' {v | v ∈ vs}) s.q.highWaterMark :=
  h.isGreatest (m := fun v => v.q.size) (f := fun v => v.q.highWaterMark) rfl
    fun ht hs => section_mark (step_section hs) ht

/-- No refused or waiting `push()`, and nothing but a `push()`, moves the mark. -/
theorem highWaterMark_step (h : Step s (i, a) t) :
    s.q.highWaterMark ≤ t.q.highWaterMark ∧
      (s.q.highWaterMark ≠ t.q.highWaterMark → ∃ x, a = .push x true) := by
  obtain ⟨x, ha, -, -, -, hmark⟩ | ⟨-, -, -, hmark⟩ := section_cases (step_section h)
  · exact ⟨by omega, fun _ => ⟨x, ha⟩⟩
  · exact ⟨hmark.ge, fun hne => (hne hmark.symm).elim⟩

end

end TickForge.BoundedQueue
