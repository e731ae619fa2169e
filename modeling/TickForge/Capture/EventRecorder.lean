import Mathlib.Logic.Function.Basic
import TickForge.Lib.Transition
import TickForge.MarketEvent.Wire

/-! The capture file, its stream buffer, and the threads that record into it. -/
namespace TickForge

open ByteString Nlohmann Transition

/-- The capture file and what the `std::ofstream` has not written to it yet. -/
structure EventRecorder where
  file : Bytes
  pending : Bytes
  deriving DecidableEq

namespace EventRecorder

def write (r : EventRecorder) (b : Bytes) : EventRecorder := { r with pending := r.pending ++ b }

def flush (r : EventRecorder) : EventRecorder := ⟨r.file ++ r.pending, []⟩

/-- The stream buffer empties its first `n` bytes by itself. -/
def spill (r : EventRecorder) (n : ℕ) : EventRecorder :=
  ⟨r.file ++ r.pending.take n, r.pending.drop n⟩

/-- The body of `record()`, between `lock()` and `unlock()`. -/
def record (c : Codec) (r : EventRecorder) (event : MarketEvent) :
    Except Exception EventRecorder := do
  let text ← c.dump (marketEventToJson event)
  return ((r.write text).write [newline]).flush

/-- Calls one after another, on an empty file. -/
def recordAll (c : Codec) (events : List MarketEvent) : Except Exception EventRecorder :=
  events.foldlM (record c) ⟨[], []⟩

/-- What one event adds to the file. -/
def line (c : Codec) (event : MarketEvent) : Bytes := c.text (marketEventToJson event) ++ [newline]

theorem record_ok {c : Codec} {event : MarketEvent} (file : Bytes)
    (h : (marketEventToJson event).utf8Valid = true) :
    record c ⟨file, []⟩ event = .ok ⟨file ++ line c event, []⟩ := by
  simp [record, Codec.dump, h, write, flush, line, bind, Except.bind, pure, Except.pure]

theorem recordAll_ok {c : Codec} {events : List MarketEvent}
    (h : ∀ e ∈ events, (marketEventToJson e).utf8Valid = true) :
    recordAll c events = .ok ⟨events.flatMap (line c), []⟩ := by
  have hfold : ∀ file, events.foldlM (record c) ⟨file, []⟩ =
      .ok ⟨file ++ events.flatMap (line c), []⟩ := by
    induction events with
    | nil => simp [pure, Except.pure]
    | cons e events ih =>
      intro file
      have hes := ih (fun e he => h e (List.mem_cons_of_mem _ he)) (file ++ line c e)
      rw [List.foldlM_cons, record_ok file (h e (by simp))]
      simpa [bind, Except.bind] using hes
  exact hfold []

/-- Positions in `record()`. -/
inductive PC where
  | idle
  | waiting (event : MarketEvent)
  | locked (event : MarketEvent)
  | dumped (text : Bytes)
  | textWritten
  | lineWritten
  | flushed
  deriving DecidableEq

structure State (ι : Type*) where
  pc : ι → PC
  /-- The thread that holds `mutex_`. -/
  owner : Option ι
  recorder : EventRecorder
  /-- Whether a session has the file open. -/
  isOpen : Bool
  /-- The events of the calls in the order in which they acquired the mutex. -/
  acquired : List MarketEvent

variable {ι : Type*} [DecidableEq ι]

def State.setPC (s : State ι) (i : ι) (p : PC) : State ι :=
  { s with pc := Function.update s.pc i p }

@[simp] theorem State.setPC_pc_self (s : State ι) (i : ι) (p : PC) : (s.setPC i p).pc i = p := by
  simp [State.setPC]

theorem State.setPC_pc_of_ne {i j : ι} (s : State ι) (p : PC) (h : j ≠ i) :
    (s.setPC i p).pc j = s.pc j := by
  simp [State.setPC, h]

/-- No session yet, and an empty file. -/
def initial : State ι where
  pc _ := .idle
  owner := none
  recorder := ⟨[], []⟩
  isOpen := false
  acquired := []

/-- One action of a thread, or of nobody: sessions that open and close, and the stream
buffer. -/
inductive Step (c : Codec) : State ι → Option ι → State ι → Prop where
  | openFile {s} : s.isOpen = false → Step c s none { s with isOpen := true }
  | call {s i e} : s.isOpen = true → s.pc i = .idle →
      Step c s (some i) (s.setPC i (.waiting e))
  | lock {s i e} : s.pc i = .waiting e → s.owner = none →
      Step c s (some i) { s.setPC i (.locked e) with
        owner := some i, acquired := s.acquired ++ [e] }
  | dump {s i e text} : s.pc i = .locked e → c.dump (marketEventToJson e) = .ok text →
      Step c s (some i) (s.setPC i (.dumped text))
  /-- The exception leaves `record()`, and the guard unlocks. -/
  | dumpThrows {s i e x} : s.pc i = .locked e → c.dump (marketEventToJson e) = .error x →
      Step c s (some i) { s.setPC i .idle with owner := none }
  | writeText {s i text} : s.pc i = .dumped text →
      Step c s (some i) { s.setPC i .textWritten with recorder := s.recorder.write text }
  | writeNewline {s i} : s.pc i = .textWritten →
      Step c s (some i) { s.setPC i .lineWritten with recorder := s.recorder.write [newline] }
  | flush {s i} : s.pc i = .lineWritten →
      Step c s (some i) { s.setPC i .flushed with recorder := s.recorder.flush }
  | unlock {s i} : s.pc i = .flushed →
      Step c s (some i) { s.setPC i .idle with owner := none }
  | spill {s n} : Step c s none { s with recorder := s.recorder.spill n }
  /-- The destructor, when no call is in progress. -/
  | closeFile {s} : s.isOpen = true → (∀ i, s.pc i = .idle) →
      Step c s none { s with isOpen := false, recorder := s.recorder.flush }

/-- The thread holds the mutex. -/
def PC.inside : PC → Bool
  | .idle | .waiting _ => false
  | _ => true

/-- What the holder still has to write. -/
def PC.remaining (c : Codec) : PC → Bytes
  | .locked e => line c e
  | .dumped text => text ++ [newline]
  | .textWritten => [newline]
  | _ => []

/-- The holder has written something that it has not flushed yet. -/
def PC.unflushed : PC → Bool
  | .textWritten | .lineWritten => true
  | _ => false

variable {c : Codec} {s t : State ι} {a : Option ι} {i j : ι}

/-- The mutex has one holder, and only the holder is inside. -/
def Exclusive (s : State ι) : Prop := ∀ i, (s.pc i).inside = true ↔ s.owner = some i

theorem exclusive_step (h : Step c s a t) (hs : Exclusive s) : Exclusive t := by
  have hset : ∀ {i p}, (s.pc i).inside = p.inside → Exclusive (s.setPC i p) := by
    intro i p hp j
    by_cases hj : j = i
    · subst hj
      rw [State.setPC_pc_self, ← hp]
      exact hs j
    · rw [State.setPC_pc_of_ne s p hj]
      exact hs j
  have hfree : ∀ {i p}, (s.pc i).inside = true → p.inside = false →
      Exclusive { s.setPC i p with owner := none } := by
    intro i p hi hp j
    by_cases hj : j = i
    · subst hj
      simp [hp]
    · have hne : s.owner ≠ some j := by
        rw [(hs i).mp hi]
        simpa [eq_comm] using hj
      have := (hs j).not.mpr hne
      simpa [State.setPC_pc_of_ne s p hj] using this
  cases h with
  | openFile | spill | closeFile => exact hs
  | call _ hi => exact hset (by simp [hi, PC.inside])
  | @lock i e hi ho =>
    intro j
    by_cases hj : j = i
    · subst hj
      simp [PC.inside]
    · have hij : i ≠ j := fun hij => hj hij.symm
      have := (hs j).not.mpr (by simp [ho])
      simpa [State.setPC_pc_of_ne s _ hj, hij] using this
  | dump hi | writeText hi | writeNewline hi | flush hi =>
    exact hset (by simp [hi, PC.inside])
  | dumpThrows hi | unlock hi => exact hfree (by simp [hi, PC.inside]) rfl

/-- Where the holder of the mutex is; `idle` when it is free. -/
def State.holder (s : State ι) : PC := s.owner.elim .idle s.pc

/-- The file, the buffer and what the holder has yet to write are the lines of the events,
and the buffer is empty unless the holder has filled it. -/
structure Content (c : Codec) (s : State ι) : Prop where
  bytes : s.recorder.file ++ s.recorder.pending ++ s.holder.remaining c =
    s.acquired.flatMap (line c)
  settled : s.holder.unflushed = false → s.recorder.pending = []
  logged : ∀ e, s.holder = .locked e → e ∈ s.acquired

omit [DecidableEq ι] in
theorem holder_eq (hs : Exclusive s) {p : PC} (hi : s.pc i = p) (hp : p.inside = true) :
    s.holder = p := by
  have ho : s.owner = some i := (hs i).mp (by rw [hi, hp])
  simp [State.holder, ho, hi]

/-- A thread outside the critical section is not the holder. -/
theorem holder_setPC_of_outside (hs : Exclusive s) {p : PC} (hi : (s.pc i).inside = false) :
    (s.setPC i p).holder = s.holder := by
  have hne : s.owner ≠ some i := (hs i).not.mp (by simp [hi])
  cases ho : s.owner with
  | none => simp [State.holder, State.setPC, ho]
  | some j =>
    have hji : j ≠ i := fun h => hne (by rw [ho, h])
    simp [State.holder, State.setPC, ho, hji]

theorem holder_setPC (hs : Exclusive s) {p : PC} (hi : (s.pc i).inside = true) :
    (s.setPC i p).holder = p := by
  have ho : (s.setPC i p).owner = some i := (hs i).mp hi
  simp [State.holder, ho]

/-- The holder moves on: what it has done and what remains stay the same bytes. -/
theorem content_move (he : Exclusive s) (hs : Content c s) {p q : PC} {r : EventRecorder}
    (hi : s.pc i = p) (hp : p.inside = true)
    (hb : r.file ++ r.pending ++ q.remaining c =
      s.recorder.file ++ s.recorder.pending ++ p.remaining c)
    (hq : q.unflushed = false → r.pending = []) (hl : ∀ e, q ≠ .locked e) :
    Content c { s.setPC i q with recorder := r } := by
  have hh : State.holder { s.setPC i q with recorder := r } = q :=
    holder_setPC he (by rw [hi, hp])
  have hbytes := hs.bytes
  rw [holder_eq he hi hp, ← hb] at hbytes
  refine ⟨?_, ?_, ?_⟩
  · rw [hh]
    exact hbytes
  · rw [hh]
    exact hq
  · intro e hq
    exact (hl e (hh.symm.trans hq)).elim

omit [DecidableEq ι] in
/-- Without a holder everything is in the file. -/
theorem content_free (ho : t.owner = none)
    (hb : t.recorder.file = t.acquired.flatMap (line c)) (hp : t.recorder.pending = []) :
    Content c t := by
  have hh : t.holder = .idle := by simp [State.holder, ho]
  refine ⟨?_, fun _ => hp, ?_⟩
  · simp [hh, PC.remaining, hp, hb]
  · simp [hh]

omit [DecidableEq ι] in
theorem Content.free (hs : Content c s) (ho : s.owner = none) :
    s.recorder = ⟨s.acquired.flatMap (line c), []⟩ := by
  have hh : s.holder = .idle := by simp [State.holder, ho]
  have hp := hs.settled (by rw [hh]; rfl)
  have hb := hs.bytes
  simp only [hh, hp, PC.remaining, List.append_nil] at hb
  rw [← hb, ← hp]

omit [DecidableEq ι] in
theorem owner_eq_none (hs : Exclusive s) (hi : ∀ i, s.pc i = .idle) : s.owner = none := by
  cases ho : s.owner with
  | none => rfl
  | some i => simpa [hi, PC.inside] using (hs i).mpr ho

theorem content_step (h : Step c s a t) (he : Exclusive s) (hs : Content c s)
    (hu : ∀ e ∈ t.acquired, (marketEventToJson e).utf8Valid = true) : Content c t := by
  cases h with
  | openFile => exact ⟨hs.bytes, hs.settled, hs.logged⟩
  | @call i e _ hi =>
    have hh : (s.setPC i (.waiting e)).holder = s.holder :=
      holder_setPC_of_outside he (by simp [hi, PC.inside])
    exact ⟨by rw [hh]; exact hs.bytes, by rw [hh]; exact hs.settled, by rw [hh]; exact hs.logged⟩
  | @lock i e hi ho =>
    have hfree := hs.free ho
    refine ⟨?_, ?_, ?_⟩ <;> simp [State.holder, PC.remaining, State.setPC, hfree]
  | @dump i e text hi hd =>
    have htext : text = c.text (marketEventToJson e) := by
      simp only [Codec.dump] at hd
      split at hd <;> simp_all
    refine content_move he hs hi rfl ?_ (fun _ => hs.settled ?_) (by simp)
    · simp [PC.remaining, line, htext]
    · rw [holder_eq he hi rfl]
      rfl
  | @dumpThrows i e x hi hd =>
    have := hu e (hs.logged e (holder_eq he hi rfl))
    simp [Codec.dump, this] at hd
  | @writeText i text hi =>
    exact content_move he hs hi rfl (by simp [PC.remaining, write]) (by simp [PC.unflushed])
      (by simp)
  | @writeNewline i hi =>
    exact content_move he hs hi rfl (by simp [PC.remaining, write]) (by simp [PC.unflushed])
      (by simp)
  | @flush i hi =>
    exact content_move he hs hi rfl (by simp [PC.remaining, EventRecorder.flush])
      (by simp [EventRecorder.flush]) (by simp)
  | @unlock i hi =>
    have hh : s.holder = .flushed := holder_eq he hi rfl
    have hp := hs.settled (by rw [hh]; rfl)
    have hb := hs.bytes
    simp only [hh, hp, PC.remaining, List.append_nil] at hb
    exact content_free rfl hb hp
  | @spill n =>
    refine ⟨?_, ?_, hs.logged⟩
    · have := hs.bytes
      simpa [EventRecorder.spill, State.holder] using this
    · intro h
      have := hs.settled h
      simp [EventRecorder.spill, this]
  | closeFile _ hi =>
    have ho := owner_eq_none he hi
    have hfree := hs.free ho
    exact content_free ho (by simp [EventRecorder.flush, hfree]) rfl

omit [DecidableEq ι] in
theorem exclusive_initial : Exclusive (initial : State ι) := by
  simp [Exclusive, initial, PC.inside]

theorem acquired_step (h : Step c s a t) : s.acquired <+: t.acquired := by
  cases h <;> simp [State.setPC]

theorem content_reachable (h : Reachable (Step c) initial s)
    (hu : ∀ e ∈ s.acquired, (marketEventToJson e).utf8Valid = true) :
    Exclusive s ∧ Content c s := by
  have hinv := h.invariant (P := fun s => Exclusive s ∧
    ((∀ e ∈ s.acquired, (marketEventToJson e).utf8Valid = true) → Content c s))
    ⟨exclusive_initial, fun _ => content_free rfl rfl rfl⟩ fun {s a t} hs hstep =>
      ⟨exclusive_step hstep hs.1, fun hu => content_step hstep hs.1
        (hs.2 fun e he => hu e ((acquired_step hstep).subset he)) hu⟩
  exact ⟨hinv.1, hinv.2 hu⟩

/-- When no call is in progress, the threads have done what the same calls do one after
another, in the order of the mutex. -/
theorem recorder_at_rest (h : Reachable (Step c) initial s) (hi : ∀ i, s.pc i = .idle)
    (hu : ∀ e ∈ s.acquired, (marketEventToJson e).utf8Valid = true) :
    recordAll c s.acquired = .ok s.recorder := by
  obtain ⟨he, hs⟩ := content_reachable h hu
  rw [recordAll_ok hu, hs.free (owner_eq_none he hi)]

end EventRecorder

end TickForge
