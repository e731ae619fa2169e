import Mathlib.Logic.Function.Basic
import TickForge.Lib.Transition

/-! The bounded blocking queue: its critical sections and the threads that run them. -/
namespace TickForge

/-- The members of `BoundedQueue<T>` that `mutex_` guards, with the constant capacity. -/
structure BoundedQueue (α : Type*) where
  capacity : ℕ
  queue : List α
  highWaterMark : ℕ
  shutDown : Bool
  deriving DecidableEq, Repr

namespace BoundedQueue

variable {α : Type*} {q r : BoundedQueue α} {x : α} {b : Bool}

def new (capacity : ℕ) : BoundedQueue α := ⟨capacity, [], 0, false⟩

def size (q : BoundedQueue α) : ℕ := q.queue.length

/-- The predicate `push()` waits for on `not_full_`. -/
def canPush (q : BoundedQueue α) : Bool := q.queue.length < q.capacity || q.shutDown

/-- The predicate `pop()` waits for on `not_empty_`. -/
def canPop (q : BoundedQueue α) : Bool := !q.queue.isEmpty || q.shutDown

/-- What `push()` does under the mutex once its wait is over. -/
def push (q : BoundedQueue α) (item : α) : Bool × BoundedQueue α :=
  if q.shutDown then (false, q)
  else
    let items := q.queue ++ [item]
    (true, { q with
      queue := items
      highWaterMark := if items.length > q.highWaterMark then items.length else q.highWaterMark })

/-- What `pop()` does under the mutex once its wait is over. -/
def pop (q : BoundedQueue α) : Option α × BoundedQueue α :=
  match q.queue with
  | [] => (none, q)
  | item :: rest => (some item, { q with queue := rest })

def shutdown (q : BoundedQueue α) : BoundedQueue α := { q with shutDown := true }

theorem push_true (h : q.push x = (true, r)) :
    q.shutDown = false ∧ r.shutDown = false ∧ r.queue = q.queue ++ [x] ∧
      r.capacity = q.capacity ∧ r.highWaterMark = max q.highWaterMark (q.queue.length + 1) := by
  unfold push at h
  split at h
  · simp at h
  · rename_i hs
    obtain ⟨-, rfl⟩ := Prod.mk.inj h
    refine ⟨by simpa using hs, by simpa using hs, rfl, rfl, ?_⟩
    simp only [List.length_append, List.length_singleton, gt_iff_lt]
    split <;> omega

theorem push_false (h : q.push x = (false, r)) : q.shutDown = true ∧ r = q := by
  unfold push at h
  split at h
  · simp_all
  · simp at h

theorem pop_some (h : q.pop = (some x, r)) :
    q.queue = x :: r.queue ∧ r.shutDown = q.shutDown ∧ r.capacity = q.capacity ∧
      r.highWaterMark = q.highWaterMark := by
  unfold pop at h
  split at h
  · simp at h
  · rename_i hq
    obtain ⟨hx, rfl⟩ := Prod.mk.inj h
    cases hx
    exact ⟨hq, rfl, rfl, rfl⟩

theorem pop_none (h : q.pop = (none, r)) : q.queue = [] ∧ r = q := by
  unfold pop at h
  split at h
  · simp_all
  · simp at h

theorem canPush_iff : q.canPush = true ↔ q.queue.length < q.capacity ∨ q.shutDown = true := by
  simp [canPush]

theorem canPush_false : q.canPush = false ↔ q.capacity ≤ q.queue.length ∧ q.shutDown = false := by
  simp [canPush]

theorem canPop_iff : q.canPop = true ↔ q.queue ≠ [] ∨ q.shutDown = true := by
  simp [canPop]

theorem canPop_false : q.canPop = false ↔ q.queue = [] ∧ q.shutDown = false := by
  simp [canPop]

/-- A `push()` that left its wait and was not refused had a free slot. -/
theorem room_of_push (hc : q.canPush = true) (h : q.push x = (true, r)) :
    q.queue.length < q.capacity := by
  rcases canPush_iff.mp hc with h' | h'
  · exact h'
  · simp [(push_true h).1] at h'

/-- A `pop()` that left its wait empty-handed saw the shutdown. -/
theorem shutDown_of_pop_none (hc : q.canPop = true) (h : q.pop = (none, r)) :
    q.shutDown = true := by
  rcases canPop_iff.mp hc with h' | h'
  · exact (h' (pop_none h).1).elim
  · exact h'

/-- Where a thread is with respect to one queue. The mutex makes each critical
section, from its acquisition to its release or its wait, a single step. -/
inductive PC (α : Type*) where
  | idle
  | pushing (item : α)
  | popping
  | shuttingDown
  | parkedNotFull (item : α)
  | parkedNotEmpty
  | wokenNotFull (item : α)
  | wokenNotEmpty
  /-- `push()` has unlocked and owes `not_empty_.notify_one()`. -/
  | owesNotEmpty
  /-- `pop()` has unlocked and owes `not_full_.notify_one()`. -/
  | owesNotFull
  /-- `shutdown()` has unlocked and owes both `notify_all()` calls. -/
  | owesAll
  /-- `shutdown()` still owes `not_empty_.notify_all()`. -/
  | owesAllNotEmpty
  deriving DecidableEq, Repr

inductive Action (α : Type*) where
  | call
  | push (item : α) (ok : Bool)
  | pop (out : Option α)
  | shutdown
  | park
  | notify
  | spurious
  | size (n : ℕ)
  | highWaterMark (n : ℕ)
  deriving DecidableEq, Repr

structure State (ι α : Type*) where
  q : BoundedQueue α
  pc : ι → PC α

variable {ι : Type*} [DecidableEq ι]

def State.setPC (s : State ι α) (i : ι) (p : PC α) : State ι α :=
  { s with pc := Function.update s.pc i p }

def State.setQ (s : State ι α) (q : BoundedQueue α) : State ι α := { s with q := q }

/-- `notify_all()` on `not_full_`: every thread parked there has to take the mutex again. -/
def wakeNotFull : PC α → PC α
  | .parkedNotFull x => .wokenNotFull x
  | p => p

/-- `notify_all()` on `not_empty_`. -/
def wakeNotEmpty : PC α → PC α
  | .parkedNotEmpty => .wokenNotEmpty
  | p => p

def State.mapPC (s : State ι α) (f : PC α → PC α) : State ι α :=
  { s with pc := fun i => f (s.pc i) }

/-- The thread is about to take the mutex for `push(item)`, first or again. -/
def AtPush (item : α) (p : PC α) : Prop := p = .pushing item ∨ p = .wokenNotFull item

/-- The thread is about to take the mutex for `pop()`, first or again. -/
def AtPop (p : PC α) : Prop := p = .popping ∨ p = .wokenNotEmpty

/-- One atomic action of one thread; `wait` parks and unlocks in the same action. -/
inductive Step : State ι α → ι × Action α → State ι α → Prop where
  | callPush {s i} (x : α) : s.pc i = .idle → Step s (i, .call) (s.setPC i (.pushing x))
  | callPop {s i} : s.pc i = .idle → Step s (i, .call) (s.setPC i .popping)
  | callShutdown {s i} : s.pc i = .idle → Step s (i, .call) (s.setPC i .shuttingDown)
  | pushPark {s i x} : AtPush x (s.pc i) → s.q.canPush = false →
      Step s (i, .park) (s.setPC i (.parkedNotFull x))
  | pushTrue {s i x q} : AtPush x (s.pc i) → s.q.canPush = true → s.q.push x = (true, q) →
      Step s (i, .push x true) ((s.setQ q).setPC i .owesNotEmpty)
  | pushFalse {s i x q} : AtPush x (s.pc i) → s.q.canPush = true → s.q.push x = (false, q) →
      Step s (i, .push x false) ((s.setQ q).setPC i .idle)
  | popPark {s i} : AtPop (s.pc i) → s.q.canPop = false →
      Step s (i, .park) (s.setPC i .parkedNotEmpty)
  | popTrue {s i x q} : AtPop (s.pc i) → s.q.canPop = true → s.q.pop = (some x, q) →
      Step s (i, .pop (some x)) ((s.setQ q).setPC i .owesNotFull)
  | popFalse {s i q} : AtPop (s.pc i) → s.q.canPop = true → s.q.pop = (none, q) →
      Step s (i, .pop none) ((s.setQ q).setPC i .idle)
  | shutdown {s i} : s.pc i = .shuttingDown →
      Step s (i, .shutdown) ((s.setQ s.q.shutdown).setPC i .owesAll)
  | notifyNotEmpty {s i} (j : ι) : s.pc i = .owesNotEmpty → s.pc j = .parkedNotEmpty →
      Step s (i, .notify) ((s.setPC j .wokenNotEmpty).setPC i .idle)
  | notifyNotEmptyLost {s i} : s.pc i = .owesNotEmpty → (∀ j, s.pc j ≠ .parkedNotEmpty) →
      Step s (i, .notify) (s.setPC i .idle)
  | notifyNotFull {s i} (j : ι) (x : α) : s.pc i = .owesNotFull → s.pc j = .parkedNotFull x →
      Step s (i, .notify) ((s.setPC j (.wokenNotFull x)).setPC i .idle)
  | notifyNotFullLost {s i} : s.pc i = .owesNotFull → (∀ j x, s.pc j ≠ .parkedNotFull x) →
      Step s (i, .notify) (s.setPC i .idle)
  | notifyAllNotFull {s i} : s.pc i = .owesAll →
      Step s (i, .notify) ((s.mapPC wakeNotFull).setPC i .owesAllNotEmpty)
  | notifyAllNotEmpty {s i} : s.pc i = .owesAllNotEmpty →
      Step s (i, .notify) ((s.mapPC wakeNotEmpty).setPC i .idle)
  | spuriousNotEmpty {s i} : s.pc i = .parkedNotEmpty →
      Step s (i, .spurious) (s.setPC i .wokenNotEmpty)
  | spuriousNotFull {s i x} : s.pc i = .parkedNotFull x →
      Step s (i, .spurious) (s.setPC i (.wokenNotFull x))
  | size {s i} : s.pc i = .idle → Step s (i, .size s.q.size) s
  | highWaterMark {s i} : s.pc i = .idle → Step s (i, .highWaterMark s.q.highWaterMark) s

/-- A fresh queue with no thread inside it. -/
def initial (ι : Type*) (capacity : ℕ) : State ι α := ⟨new capacity, fun _ => .idle⟩

end BoundedQueue
end TickForge
