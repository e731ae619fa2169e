import Mathlib.Data.List.Dedup
import Mathlib.Logic.Function.Basic
import TickForge.Kafka.Producer
import TickForge.Lib.JsonText
import TickForge.Lib.Transition

/-! Batches on their way to the broker, which may fail and be sent again. -/
namespace TickForge.Retries

open ByteString Nlohmann Transition

/-- An accepted message, with the number of its `publish()` call. -/
structure Numbered where
  number : ℕ
  entry : Entry
  deriving DecidableEq

structure Batch where
  partition : ℕ
  messages : List Numbered
  deriving DecidableEq

inductive Status where
  | unsent
  | onWire
  /-- Appended by the broker, and its acknowledgement on the way back. -/
  | stored
  /-- The request has failed or its acknowledgement is lost. -/
  | retry
  | acknowledged
  deriving DecidableEq, Repr

structure State where
  published : List MarketEvent
  /-- The accepted messages of each partition that are in no batch yet. -/
  queue : ℕ → List Numbered
  /-- In the order in which they were first sent. -/
  batches : List Batch
  status : ℕ → Status
  log : ℕ → List Numbered

inductive Action where
  | publish
  | send (partition count : ℕ)
  | arrive (batch : ℕ)
  | fail (batch : ℕ)
  | loseAck (batch : ℕ)
  | acknowledge (batch : ℕ)
  | resend (batch : ℕ)
  deriving DecidableEq, Repr

def initial : State where
  published := []
  queue _ := []
  batches := []
  status _ := .unsent
  log _ := []

def State.setStatus (s : State) (i : ℕ) (x : Status) : State :=
  { s with status := Function.update s.status i x }

/-- Any number of batches may be on the wire, and the broker appends whatever arrives. -/
inductive Step (c : Codec) (partitioner : Bytes → ℕ) : State → Action → State → Prop where
  /-- `publish()` has returned true. -/
  | publish {s e payload} : c.dump (marketEventToJson e) = .ok payload →
      Step c partitioner s .publish { s with
        published := s.published ++ [e]
        queue := Function.update s.queue (partitioner e.symbol)
          (s.queue (partitioner e.symbol) ++ [⟨s.published.length, ⟨e.symbol, payload⟩⟩]) }
  | send {s p k} : 0 < k → k ≤ (s.queue p).length →
      Step c partitioner s (.send p k) { s with
        queue := Function.update s.queue p ((s.queue p).drop k)
        batches := s.batches ++ [⟨p, (s.queue p).take k⟩]
        status := Function.update s.status s.batches.length .onWire }
  | arrive {s i b} : s.status i = .onWire → s.batches[i]? = some b →
      Step c partitioner s (.arrive i) { s.setStatus i .stored with
        log := Function.update s.log b.partition (s.log b.partition ++ b.messages) }
  | fail {s i} : s.status i = .onWire →
      Step c partitioner s (.fail i) (s.setStatus i .retry)
  | loseAck {s i} : s.status i = .stored →
      Step c partitioner s (.loseAck i) (s.setStatus i .retry)
  | acknowledge {s i} : s.status i = .stored →
      Step c partitioner s (.acknowledge i) (s.setStatus i .acknowledged)
  | resend {s i} : s.status i = .retry →
      Step c partitioner s (.resend i) (s.setStatus i .onWire)

/-- The first occurrences, in their order. -/
def firsts (l : List Numbered) : List Numbered := l.reverse.dedup.reverse

/-- In every partition the first occurrences of one symbol's events are in the order of
their `publish()` calls. -/
def InOrder (s : State) : Prop :=
  ∀ p symbol, ((firsts (s.log p)).filter (·.entry.key = symbol)).Pairwise
    (·.number < ·.number)

/-- A batch is sent only when the messages of its symbols that were sent before are stored. -/
def Orderly (s : State) : Action → Prop
  | .send p k => ∀ m ∈ (s.queue p).take k, ∀ b ∈ s.batches, b.partition = p →
      ∀ m' ∈ b.messages, m'.entry.key = m.entry.key → m' ∈ s.log p
  | _ => True

def OrderlyStep (c : Codec) (partitioner : Bytes → ℕ) (s : State) (a : Action) (t : State) : Prop :=
  Step c partitioner s a t ∧ Orderly s a

variable {c : Codec} {partitioner : Bytes → ℕ} {s t : State} {a : Action} {l ms : List Numbered}

theorem mem_firsts {m : Numbered} : m ∈ firsts l ↔ m ∈ l := by simp [firsts]

theorem firsts_sublist (l : List Numbered) : (firsts l).Sublist l := by
  simpa [firsts] using (List.dedup_sublist l.reverse).reverse

theorem firsts_concat (l : List Numbered) (m : Numbered) :
    firsts (l ++ [m]) = if m ∈ l then firsts l else firsts l ++ [m] := by
  split
  · next h => simp [firsts, List.dedup_cons_of_mem (List.mem_reverse.mpr h)]
  · next h => simp [firsts, List.dedup_cons_of_notMem (fun hm => h (List.mem_reverse.mp hm))]

/-- What is appended adds its own first occurrences that are new. -/
theorem firsts_append (l ms : List Numbered) :
    firsts (l ++ ms) = firsts l ++ (firsts ms).filter (· ∉ l) := by
  induction ms using List.reverseRecOn with
  | nil => simp [firsts]
  | append_singleton ms m ih =>
    rw [← List.append_assoc, firsts_concat, firsts_concat, ih]
    by_cases hms : m ∈ ms
    · simp [hms]
    · by_cases hl : m ∈ l <;> simp [hms, hl]

/-- What ties numbers, batches and logs together in every run. -/
structure Sent (s : State) : Prop where
  queue_sorted : ∀ p, (s.queue p).Pairwise (·.number < ·.number)
  queue_fresh : ∀ p, ∀ m ∈ s.queue p, m.number < s.published.length
  batch_sorted : ∀ b ∈ s.batches, b.messages.Pairwise (·.number < ·.number)
  batch_fresh : ∀ b ∈ s.batches, ∀ m ∈ b.messages, m.number < s.published.length
  batch_queue : ∀ b ∈ s.batches, ∀ m ∈ b.messages, ∀ m' ∈ s.queue b.partition,
    m.number < m'.number
  increasing : ∀ {i j : ℕ} {b b' : Batch}, i < j → s.batches[i]? = some b →
    s.batches[j]? = some b' → b.partition = b'.partition →
    ∀ m ∈ b.messages, ∀ m' ∈ b'.messages, m.number < m'.number
  logged : ∀ p, ∀ m ∈ s.log p, ∃ (i : ℕ) (b : Batch), s.batches[i]? = some b ∧
    b.partition = p ∧ m ∈ b.messages ∧ ∀ m' ∈ b.messages, m' ∈ s.log p
  status : ∀ {i : ℕ} {b : Batch}, s.batches[i]? = some b → s.status i ≠ .unsent ∧
    (s.status i = .stored ∨ s.status i = .acknowledged → ∀ m ∈ b.messages, m ∈ s.log b.partition)

theorem sent_initial : Sent initial := by
  refine ⟨?_, ?_, ?_, ?_, ?_, ?_, ?_, ?_⟩ <;> simp [initial]

/-- A batch that has been sent before, or the one that is sent now. -/
theorem getElem?_concat {bs : List Batch} {b b' : Batch} {i : ℕ}
    (h : (bs ++ [b])[i]? = some b') : bs[i]? = some b' ∨ (i = bs.length ∧ b' = b) := by
  rcases Nat.lt_trichotomy i bs.length with hi | hi | hi
  · rw [List.getElem?_append_left hi] at h
    exact Or.inl h
  · subst hi
    simp at h
    exact Or.inr ⟨rfl, h.symm⟩
  · rw [List.getElem?_eq_none (by simp; omega)] at h
    simp at h

/-- A change of status keeps the rest, and marks as stored only what is in the log. -/
theorem sent_setStatus {i : ℕ} {x : Status} (hs : Sent s) (hx : x ≠ .unsent)
    (hl : x = .stored ∨ x = .acknowledged → s.status i = .stored) : Sent (s.setStatus i x) := by
  obtain ⟨hqs, hqf, hbs, hbf, hbq, hinc, hlog, hst⟩ := hs
  refine ⟨hqs, hqf, hbs, hbf, hbq, hinc, hlog, ?_⟩
  intro j b hb
  by_cases hj : j = i
  · subst hj
    simp only [State.setStatus, Function.update_self]
    exact ⟨hx, fun h => (hst hb).2 (Or.inl (hl h))⟩
  · simpa [State.setStatus, hj] using hst hb

/-- What one partition has after an append to another, or to itself. -/
theorem mem_update_append {f : ℕ → List Numbered} {p q : ℕ} {m : Numbered} :
    m ∈ Function.update f p (f p ++ ms) q ↔ m ∈ f q ∨ (q = p ∧ m ∈ ms) := by
  by_cases hq : q = p
  · subst hq
    simp
  · simp [hq]

theorem sent_publish {e : MarketEvent} {p : ℕ} {x : Entry} (hs : Sent s) :
    Sent { s with
      published := s.published ++ [e]
      queue := Function.update s.queue p (s.queue p ++ [⟨s.published.length, x⟩]) } := by
  obtain ⟨hqs, hqf, hbs, hbf, hbq, hinc, hlog, hst⟩ := hs
  refine ⟨?_, ?_, hbs, ?_, ?_, hinc, hlog, hst⟩
  · intro q
    by_cases hq : q = p
    · subst hq
      simpa [List.pairwise_append, hqs q] using hqf q
    · simpa [hq] using hqs q
  · intro q m hm
    simp only [List.length_append, List.length_singleton]
    rcases mem_update_append.mp hm with hm | ⟨-, hm⟩
    · have := hqf q m hm
      omega
    · obtain rfl := List.mem_singleton.mp hm
      simp
  · intro b hb m hm
    have := hbf b hb m hm
    simp only [List.length_append, List.length_singleton]
    omega
  · intro b hb m hm m' hm'
    rcases mem_update_append.mp hm' with hm' | ⟨-, hm'⟩
    · exact hbq b hb m hm m' hm'
    · obtain rfl := List.mem_singleton.mp hm'
      exact hbf b hb m hm

/-- The first messages of a queue come before the others. -/
theorem take_lt_drop {k : ℕ} (h : l.Pairwise (·.number < ·.number)) {m m' : Numbered}
    (hm : m ∈ l.take k) (hm' : m' ∈ l.drop k) : m.number < m'.number := by
  rw [← List.take_append_drop k l, List.pairwise_append] at h
  exact h.2.2 m hm m' hm'

theorem mem_drop_queue {p q k : ℕ} {m : Numbered}
    (hm : m ∈ Function.update s.queue p ((s.queue p).drop k) q) : m ∈ s.queue q := by
  by_cases hq : q = p
  · subst hq
    rw [Function.update_self] at hm
    exact List.mem_of_mem_drop hm
  · rwa [Function.update_of_ne hq] at hm

theorem sent_send {p k : ℕ} (hs : Sent s) : Sent { s with
    queue := Function.update s.queue p ((s.queue p).drop k)
    batches := s.batches ++ [⟨p, (s.queue p).take k⟩]
    status := Function.update s.status s.batches.length .onWire } := by
  obtain ⟨hqs, hqf, hbs, hbf, hbq, hinc, hlog, hst⟩ := hs
  have htake : ∀ m ∈ (s.queue p).take k, m ∈ s.queue p := fun m hm => List.mem_of_mem_take hm
  refine ⟨?_, ?_, ?_, ?_, ?_, ?_, ?_, ?_⟩
  · intro q
    by_cases hq : q = p
    · subst hq
      simpa using (hqs q).drop
    · simpa [hq] using hqs q
  · intro q m hm
    exact hqf q m (mem_drop_queue hm)
  · intro b hb
    rcases List.mem_append.mp hb with hb | hb
    · exact hbs b hb
    · obtain rfl := List.mem_singleton.mp hb
      exact (hqs p).take
  · intro b hb m hm
    rcases List.mem_append.mp hb with hb | hb
    · exact hbf b hb m hm
    · obtain rfl := List.mem_singleton.mp hb
      exact hqf p m (htake m hm)
  · intro b hb m hm m' hm'
    rcases List.mem_append.mp hb with hb | hb
    · exact hbq b hb m hm m' (mem_drop_queue hm')
    · obtain rfl := List.mem_singleton.mp hb
      simp only [Function.update_self] at hm'
      exact take_lt_drop (hqs p) hm hm'
  · intro i j b b' hij hb hb' hp m hm m' hm'
    have hlt : j < s.batches.length + 1 := by
      simpa using (List.getElem?_eq_some_iff.mp hb').1
    have hb : s.batches[i]? = some b := by
      rwa [List.getElem?_append_left (by omega)] at hb
    rcases getElem?_concat hb' with hb' | ⟨-, rfl⟩
    · exact hinc hij hb hb' hp m hm m' hm'
    · exact hbq b (List.mem_of_getElem? hb) m hm m' (hp ▸ htake m' hm')
  · intro q m hm
    obtain ⟨i, b, hb, hrest⟩ := hlog q m hm
    refine ⟨i, b, ?_, hrest⟩
    rw [List.getElem?_append_left (List.getElem?_eq_some_iff.mp hb).1]
    exact hb
  · intro i b hb
    rcases getElem?_concat hb with hb | ⟨rfl, rfl⟩
    · have hi : i ≠ s.batches.length := (List.getElem?_eq_some_iff.mp hb).1.ne
      simpa [hi] using hst hb
    · simp

theorem sent_arrive {i : ℕ} {b : Batch} (hb : s.batches[i]? = some b) (hs : Sent s) :
    Sent { s.setStatus i .stored with
      log := Function.update s.log b.partition (s.log b.partition ++ b.messages) } := by
  obtain ⟨hqs, hqf, hbs, hbf, hbq, hinc, hlog, hst⟩ := hs
  refine ⟨hqs, hqf, hbs, hbf, hbq, hinc, ?_, ?_⟩
  · intro q m hm
    rcases mem_update_append.mp hm with hin | ⟨rfl, hin⟩
    · obtain ⟨j, b', hb', hp, hmem, hall⟩ := hlog q m hin
      exact ⟨j, b', hb', hp, hmem, fun m' hm' => mem_update_append.mpr (Or.inl (hall m' hm'))⟩
    · exact ⟨i, b, hb, rfl, hin, fun m' hm' => mem_update_append.mpr (Or.inr ⟨rfl, hm'⟩)⟩
  · intro j b' hb'
    by_cases hj : j = i
    · subst hj
      obtain rfl : b = b' := Option.some.inj (hb.symm.trans hb')
      refine ⟨by simp [State.setStatus], ?_⟩
      intro _ m hm
      exact mem_update_append.mpr (Or.inr ⟨rfl, hm⟩)
    · obtain ⟨hne, hmem⟩ := hst hb'
      simp only [State.setStatus, Function.update_of_ne hj]
      refine ⟨hne, ?_⟩
      intro h m hm
      exact mem_update_append.mpr (Or.inl (hmem h m hm))

theorem sent_step (h : Step c partitioner s a t) (hs : Sent s) : Sent t := by
  cases h with
  | publish _ => exact sent_publish hs
  | send _ _ => exact sent_send hs
  | arrive _ hb => exact sent_arrive hb hs
  | fail _ => exact sent_setStatus hs (by simp) (by simp)
  | loseAck _ => exact sent_setStatus hs (by simp) (by simp)
  | acknowledge hi => exact sent_setStatus hs (by simp) (fun _ => hi)
  | resend _ => exact sent_setStatus hs (by simp) (by simp)

theorem sent_reachable (h : Reachable (Step c partitioner) initial s) : Sent s :=
  h.invariant sent_initial fun hs hstep => sent_step hstep hs

/-- A message is stored before the next one of its symbol is sent in a later batch. -/
def Separated (s : State) : Prop :=
  ∀ {i j : ℕ} {b b' : Batch}, i < j → s.batches[i]? = some b → s.batches[j]? = some b' →
    b.partition = b'.partition → ∀ m ∈ b.messages, ∀ m' ∈ b'.messages,
      m.entry.key = m'.entry.key → m ∈ s.log b.partition

theorem separated_step (h : OrderlyStep c partitioner s a t) (hs : Separated s) :
    Separated t := by
  obtain ⟨h, ho⟩ := h
  cases h with
  | publish _ => exact hs
  | @send p k _ _ =>
    intro i j b b' hij hb hb' hp m hm m' hm' hkey
    have hlt : j < s.batches.length + 1 := by
      simpa using (List.getElem?_eq_some_iff.mp hb').1
    have hold : s.batches[i]? = some b := by
      rwa [List.getElem?_append_left (by omega)] at hb
    rcases getElem?_concat hb' with hb' | ⟨-, rfl⟩
    · exact hs hij hold hb' hp m hm m' hm' hkey
    · subst hp
      exact ho m' hm' b (List.mem_of_getElem? hold) rfl m hm hkey
  | arrive _ _ =>
    intro i j b b' hij hb hb' hp m hm m' hm' hkey
    exact mem_update_append.mpr (Or.inl (hs hij hb hb' hp m hm m' hm' hkey))
  | fail _ => exact hs
  | loseAck _ => exact hs
  | acknowledge _ => exact hs
  | resend _ => exact hs

/-- What a batch adds comes after everything of its symbols that is already stored. -/
theorem inOrder_arrive {i : ℕ} {b : Batch} {a m : Numbered} (hb : s.batches[i]? = some b)
    (hs : Sent s) (hsep : Separated s) (ha : a ∈ s.log b.partition) (hm : m ∈ b.messages)
    (hnew : m ∉ s.log b.partition) (hkey : a.entry.key = m.entry.key) :
    a.number < m.number := by
  obtain ⟨j, b', hb', hp, hmem, hall⟩ := hs.logged _ a ha
  rcases Nat.lt_trichotomy j i with hj | rfl | hj
  · exact hs.increasing hj hb' hb hp a hmem m hm
  · obtain rfl : b = b' := Option.some.inj (hb.symm.trans hb')
    exact absurd (hall m hm) hnew
  · exact absurd (hsep hj hb hb' hp.symm m hm a hmem hkey.symm) hnew

theorem inOrder_step (h : Step c partitioner s a t) (hs : Sent s) (hsep : Separated s)
    (ho : InOrder s) : InOrder t := by
  cases h with
  | publish _ => exact ho
  | send _ _ => exact ho
  | @arrive i b _ hb =>
    intro p symbol
    by_cases hp : p = b.partition
    · subst hp
      simp only [Function.update_self]
      rw [firsts_append, List.filter_append, List.pairwise_append]
      refine ⟨ho _ symbol, ?_, ?_⟩
      · have hsub := (List.filter_sublist (p := fun m => decide (m.entry.key = symbol))).trans
          ((List.filter_sublist (p := fun m => decide (m ∉ s.log b.partition))).trans
            (firsts_sublist b.messages))
        exact (hs.batch_sorted b (List.mem_of_getElem? hb)).sublist hsub
      · intro a ha m hm
        simp only [List.mem_filter, mem_firsts, decide_eq_true_eq] at ha hm
        exact inOrder_arrive hb hs hsep ha.1 hm.1.1 hm.1.2 (ha.2.trans hm.2.symm)
    · simpa [hp] using ho p symbol
  | fail _ => exact ho
  | loseAck _ => exact ho
  | acknowledge _ => exact ho
  | resend _ => exact ho

theorem inOrder_reachable (h : Reachable (OrderlyStep c partitioner) initial s) : InOrder s := by
  have hall : Sent s ∧ Separated s ∧ InOrder s := by
    refine h.invariant (P := fun s => Sent s ∧ Separated s ∧ InOrder s) ?_ ?_
    · refine ⟨sent_initial, ?_, ?_⟩
      · intro i j b b' _ hb
        simp [initial] at hb
      · intro p symbol
        simp [initial, firsts]
    · rintro s a t ⟨hs, hsep, ho⟩ hstep
      exact ⟨sent_step hstep.1 hs, separated_step hstep hsep, inOrder_step hstep.1 hs hsep ho⟩
  exact hall.2.2

/-- A message appended after a later one of its symbol. -/
theorem not_inOrder_of_append (l ms : List Numbered) {p : ℕ} {m m' : Numbered}
    (hlog : s.log p = l ++ ms) (hm : m ∈ l) (hm' : m' ∈ ms) (hnew : m' ∉ l)
    (hkey : m'.entry.key = m.entry.key) (hlt : m'.number < m.number) : ¬ InOrder s := by
  intro ho
  have h := ho p m.entry.key
  rw [hlog, firsts_append, List.filter_append, List.pairwise_append] at h
  have hle := h.2.2 m (by simp [mem_firsts, hm]) m' (by simp [mem_firsts, hm', hnew, hkey])
  omega

/-- The batch on the wire overtakes one that has to be sent again. -/
theorem overtaken {i j : ℕ} {b b' : Batch} {m m' : Numbered} (hb : s.batches[i]? = some b)
    (hb' : s.batches[j]? = some b') (hp : b.partition = b'.partition)
    (hi : s.status i = .onWire ∨ s.status i = .retry) (hj : s.status j = .onWire)
    (hij : i ≠ j) (hm' : m' ∈ b.messages) (hm : m ∈ b'.messages)
    (hnew : m' ∉ s.log b.partition) (hkey : m'.entry.key = m.entry.key)
    (hlt : ∀ x ∈ b'.messages, m'.number < x.number) :
    ∃ u, Reachable (Step c partitioner) s u ∧ ¬ InOrder u := by
  let u : State := { s.setStatus j .stored with
    log := Function.update s.log b'.partition (s.log b'.partition ++ b'.messages) }
  have hu : Reachable (Step c partitioner) s u :=
    (Reachable.refl s).snoc (.arrive hj hb')
  have hlog : u.log b.partition = s.log b.partition ++ b'.messages := by
    simp [u, hp]
  have hnot : m' ∉ s.log b.partition ++ b'.messages := by
    rw [List.mem_append]
    rintro (h | h)
    · exact hnew h
    · exact absurd (hlt m' h) (Nat.lt_irrefl _)
  have hlast : ∀ {v : State}, Reachable (Step c partitioner) s v → v.status i = .onWire →
      v.batches = s.batches → v.log = u.log →
      ∃ w, Reachable (Step c partitioner) s w ∧ ¬ InOrder w := by
    intro v hv hst hbs hl
    refine ⟨_, hv.snoc (.arrive hst (hbs ▸ hb)), ?_⟩
    refine not_inOrder_of_append _ b.messages (p := b.partition) ?_
      (List.mem_append_right _ hm) hm' hnot hkey (hlt m hm)
    simp [hl, hlog]
  have hstatus : u.status i = s.status i := Function.update_of_ne hij _ _
  rcases hi with hi | hi
  · exact hlast hu (hstatus.trans hi) rfl rfl
  · refine hlast (hu.snoc (.resend (hstatus.trans hi))) ?_ rfl rfl
    exact Function.update_self i _ _

/-- A batch sent before the earlier messages of its symbols are stored can overtake them. -/
theorem send_overtakes {p k : ℕ} (hs : Sent s) (h : Step c partitioner s (.send p k) t)
    (ho : ¬ Orderly s (.send p k)) : ∃ u, Reachable (Step c partitioner) t u ∧ ¬ InOrder u := by
  simp only [Orderly, not_forall] at ho
  obtain ⟨m, hm, b, hb, rfl, m', hm', hkey, hnew⟩ := ho
  obtain ⟨i, hi⟩ := List.getElem?_of_mem hb
  have hlt : i < s.batches.length := (List.getElem?_eq_some_iff.mp hi).1
  cases h with
  | send _ _ =>
    refine overtaken (i := i) (j := s.batches.length) (b := b) ?_
      (List.getElem?_concat_length ..) rfl ?_ ?_ hlt.ne hm' hm hnew hkey ?_
    · simpa [List.getElem?_append_left hlt] using hi
    · simp only [Function.update_of_ne hlt.ne]
      obtain ⟨hsent, hstored⟩ := hs.status hi
      cases hst : s.status i with
      | unsent => exact absurd hst hsent
      | onWire => exact Or.inl rfl
      | retry => exact Or.inr rfl
      | stored => exact absurd (hstored (Or.inl hst) m' hm') hnew
      | acknowledged => exact absurd (hstored (Or.inr hst) m' hm') hnew
    · simp
    · intro x hx
      exact hs.batch_queue b hb m' hm' x (List.mem_of_mem_take hx)

/-- Order survives every run that sends a batch only when the messages of its symbols that
were sent before are stored; any other send can end out of order. -/
theorem orderly_sends_keep_order (c : Codec) (partitioner : Bytes → ℕ) :
    (∀ s, Reachable (OrderlyStep c partitioner) initial s → InOrder s) ∧
      ∀ s t p k, Reachable (Step c partitioner) initial s →
        Step c partitioner s (.send p k) t → ¬ Orderly s (.send p k) →
        ∃ u, Reachable (Step c partitioner) t u ∧ ¬ InOrder u := by
  constructor
  · intro s h
    exact inOrder_reachable h
  · intro s t p k h hstep ho
    exact send_overtakes (sent_reachable h) hstep ho

/-- The trade after `sampleEvent`. -/
def nextEvent : MarketEvent := { sampleEvent with providerSequence := some 43 }

theorem dump_sampleEvent : compact.dump (marketEventToJson sampleEvent) =
    .ok (entry compact sampleEvent).payload := by
  simp [Codec.dump, sampleEvent_encodable.printable.1, entry]

theorem dump_nextEvent : compact.dump (marketEventToJson nextEvent) =
    .ok (entry compact nextEvent).payload := by
  have h : (marketEventToJson nextEvent).utf8Valid = true := by decide
  simp [Codec.dump, h, entry]

/-- Two trades of one symbol are accepted, and the first one is sent. -/
def firstSent : State where
  published := [sampleEvent, nextEvent]
  queue := Function.update (fun _ => []) 0 [⟨1, entry compact nextEvent⟩]
  batches := [⟨0, [⟨0, entry compact sampleEvent⟩]⟩]
  status := Function.update (fun _ => .unsent) 0 .onWire
  log _ := []

theorem firstSent_reachable : Reachable (OrderlyStep compact fun _ => 0) initial firstSent := by
  have h₁ : Reachable (OrderlyStep compact fun _ => 0) initial _ :=
    (Reachable.refl _).snoc ⟨.publish dump_sampleEvent, trivial⟩
  have h₂ := h₁.snoc ⟨.publish dump_nextEvent, trivial⟩
  have h₃ := h₂.snoc ⟨.send (p := 0) (k := 1) (by decide) (by simp [initial]), by
    simp [Orderly, initial]⟩
  convert h₃ using 1
  simp [firstSent, initial, entry]

theorem reachable_of_orderly (h : Reachable (OrderlyStep c partitioner) s t) :
    Reachable (Step c partitioner) s t :=
  h.mono fun hstep => hstep.1

/-- The first batch fails once. The second one waits until it is stored, or it does not and
may overtake it. -/
theorem orderly_sends_keep_order_one_failure :
    (∃ s : State, Reachable (OrderlyStep compact fun _ => 0) initial s ∧
      s.log 0 = [⟨0, entry compact sampleEvent⟩, ⟨1, entry compact nextEvent⟩] ∧ InOrder s) ∧
    ∃ t u : State, Step compact (fun _ => 0) firstSent (.send 0 1) t ∧
      Reachable (Step compact fun _ => 0) t u ∧ ¬ InOrder u := by
  obtain ⟨hkeep, hopen⟩ := orderly_sends_keep_order compact fun _ => 0
  constructor
  · have h₁ := firstSent_reachable.snoc ⟨.fail (i := 0) rfl, trivial⟩
    have h₂ := h₁.snoc ⟨.resend (i := 0) rfl, trivial⟩
    have h₃ := h₂.snoc ⟨.arrive (i := 0) rfl rfl, trivial⟩
    have h₄ := h₃.snoc ⟨.send (p := 0) (k := 1) (by decide)
      (by simp [firstSent, State.setStatus]), by simp [Orderly, firstSent, State.setStatus]⟩
    have h₅ := h₄.snoc ⟨.arrive (i := 1) rfl rfl, trivial⟩
    exact ⟨_, h₅, rfl, hkeep _ h₅⟩
  · have hstep : Step compact (fun _ => 0) firstSent (.send 0 1) _ :=
      .send (by decide) (by simp [firstSent])
    obtain ⟨u, hu, hout⟩ := hopen _ _ 0 1 (reachable_of_orderly firstSent_reachable) hstep (by
      simp [Orderly, firstSent, entry, nextEvent])
    exact ⟨_, u, hstep, hu, hout⟩

/-- The first batch fails while the second one is on the wire, and is stored after it. -/
theorem retried_batch_reordered :
    ∃ s : State, Reachable (Step compact fun _ => 0) initial s ∧
      s.log 0 = [⟨1, entry compact nextEvent⟩, ⟨0, entry compact sampleEvent⟩] ∧
      nextEvent.symbol = sampleEvent.symbol ∧ ¬ InOrder s := by
  have h₁ := (reachable_of_orderly firstSent_reachable).snoc (.send (p := 0) (k := 1) (by decide)
    (by simp [firstSent]))
  have h₂ := h₁.snoc (.fail (i := 0) rfl)
  have h₃ := h₂.snoc (.arrive (i := 1) rfl rfl)
  have h₄ := h₃.snoc (.resend (i := 0) rfl)
  have h₅ := h₄.snoc (.arrive (i := 0) rfl rfl)
  refine ⟨_, h₅, rfl, rfl, ?_⟩
  exact not_inOrder_of_append [⟨1, entry compact nextEvent⟩]
    [⟨0, entry compact sampleEvent⟩] (p := 0) rfl
    (List.mem_singleton_self _) (List.mem_singleton_self _) (by decide) rfl (by decide)

end TickForge.Retries
