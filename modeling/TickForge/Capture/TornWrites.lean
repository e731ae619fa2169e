import TickForge.Capture.RoundTrip
import TickForge.Lib.JsonPrefix

/-! Recorder sessions that a crash cuts off, and what the file replays as. -/
namespace TickForge.TornWrites

open ByteString Nlohmann Transition EventRecorder

/-- A session records these events, and its first `cut` bytes reach the file. -/
structure Session where
  events : List MarketEvent
  cut : ℕ

/-- The events whose whole line is among the first `n` bytes. -/
def completed (c : Codec) : List MarketEvent → ℕ → List MarketEvent
  | [], _ => []
  | e :: es, n =>
    if (line c e).length ≤ n then e :: completed c es (n - (line c e).length) else []

/-- Empty, or the last line is ended by its newline. -/
def Terminated (b : Bytes) : Prop := b = [] ∨ b.getLast? = some newline

instance (b : Bytes) : Decidable (Terminated b) := inferInstanceAs (Decidable (_ ∨ _))

/-- The file, the events whose lines are complete, and the sessions cut within a line. -/
structure State where
  file : Bytes
  complete : List MarketEvent
  torn : ℕ

def initial : State := ⟨[], [], 0⟩

/-- One session on the file that it finds. -/
def append (c : Codec) (s : State) (x : Session) : Except Exception State := do
  let r ← recordAll c x.events
  let written := r.file.take x.cut
  return {
    file := s.file ++ written
    complete := s.complete ++ completed c x.events x.cut
    torn := if Terminated written then s.torn else s.torn + 1 }

inductive Step (c : Codec) : State → Session → State → Prop where
  | session {s x t} : (∀ e ∈ x.events, e.Encodable) → append c s x = .ok t → Step c s x t

/-- A session that completes a line begins behind the end of one. -/
def AlignedStep (c : Codec) (s : State) (x : Session) (t : State) : Prop :=
  Step c s x t ∧ (completed c x.events x.cut ≠ [] → Terminated s.file)

variable {c : Codec} {s t : State} {x : Session} {events : List MarketEvent} {n : ℕ} {b : Bytes}

/-- The state behind a session whose events can all be written. -/
def after (c : Codec) (s : State) (x : Session) : State where
  file := s.file ++ (x.events.flatMap (line c)).take x.cut
  complete := s.complete ++ completed c x.events x.cut
  torn := if Terminated ((x.events.flatMap (line c)).take x.cut) then s.torn else s.torn + 1

theorem append_eq (h : ∀ e ∈ x.events, e.Encodable) (s : State) :
    append c s x = .ok (after c s x) := by
  simp [append, recordAll_ok fun e he => (h e he).printable.1, bind, Except.bind, pure, Except.pure,
    after]

/-- The beginning of an event's text. -/
def Fragment (c : Codec) (b : Bytes) : Prop :=
  ∃ e : MarketEvent, e.Encodable ∧ b <+: c.text (marketEventToJson e)

theorem Fragment.newline_notMem (hc : c.Lawful) (h : Fragment c b) : newline ∉ b := by
  obtain ⟨e, he, hb⟩ := h
  exact fun hn => hc.newline_notMem he.printable (hb.subset hn)

/-- A cut leaves whole lines and the beginning of one more. -/
theorem take_lines (h : ∀ e ∈ events, e.Encodable) (n : ℕ) :
    ∃ tail, (events.flatMap (line c)).take n = (completed c events n).flatMap (line c) ++ tail ∧
      (tail = [] ∨ Fragment c tail) := by
  induction events generalizing n with
  | nil => exact ⟨[], by simp [completed], Or.inl rfl⟩
  | cons e es ih =>
    by_cases hn : (line c e).length ≤ n
    · obtain ⟨tail, htail, hfrag⟩ := ih (fun e he => h e (List.mem_cons_of_mem _ he))
        (n - (line c e).length)
      refine ⟨tail, ?_, hfrag⟩
      rw [List.flatMap_cons, List.take_append, List.take_of_length_le hn, htail, completed,
        if_pos hn, List.flatMap_cons, List.append_assoc]
    · refine ⟨(c.text (marketEventToJson e)).take n, ?_,
        Or.inr ⟨e, h e (by simp), List.take_prefix n _⟩⟩
      have hlt : n ≤ (c.text (marketEventToJson e)).length := by
        simp only [line, List.length_append, List.length_singleton] at hn
        omega
      rw [List.flatMap_cons, List.take_append_of_le_length (by omega), completed, if_neg hn, line,
        List.take_append_of_le_length hlt]
      rfl

theorem completed_subset (h : ∀ e ∈ events, e.Encodable) (n : ℕ) :
    ∀ e ∈ completed c events n, e.Encodable := by
  induction events generalizing n with
  | nil => simp [completed]
  | cons e es ih =>
    rw [completed]
    split
    · intro e' he'
      rcases List.mem_cons.mp he' with rfl | he'
      · exact h _ (by simp)
      · exact ih (fun e he => h e (List.mem_cons_of_mem _ he)) _ e' he'
    · simp

theorem not_terminated_append {a : Bytes} (hb : b ≠ []) (hn : newline ∉ b) :
    ¬ Terminated (a ++ b) := by
  rintro (h | h)
  · exact hb (List.append_eq_nil_iff.mp h).2
  · rw [List.getLast?_append_of_ne_nil a hb] at h
    exact hn (List.mem_of_getLast? h)

/-- The file is the complete lines, and behind them the beginnings of lines that were cut. -/
structure Framed (c : Codec) (s : State) : Prop where
  encodable : ∀ e ∈ s.complete, e.Encodable
  tail : ∃ fragments : List Bytes,
    s.file = s.complete.flatMap (line c) ++ fragments.flatten ∧
    (∀ b ∈ fragments, b ≠ [] ∧ Fragment c b) ∧ (fragments ≠ [] → 0 < s.torn)

theorem newline_notMem_flatten (hc : c.Lawful) {fragments : List Bytes}
    (h : ∀ b ∈ fragments, b ≠ [] ∧ Fragment c b) : newline ∉ fragments.flatten := by
  intro hn
  obtain ⟨b, hb, hn⟩ := List.mem_flatten.mp hn
  exact (h b hb).2.newline_notMem hc hn

/-- An aligned session leaves complete lines in front. -/
theorem framed_step (hc : c.Lawful) (h : AlignedStep c s x t) (hs : Framed c s) : Framed c t := by
  obtain ⟨⟨henc, happ⟩, halign⟩ := h
  obtain ⟨fragments, hfile, hfrag, htorn⟩ := hs.tail
  obtain ⟨tail, hcut, htail⟩ := take_lines (c := c) henc x.cut
  obtain rfl : after c s x = t := by simpa [append_eq henc] using happ
  refine ⟨?_, ?_⟩
  · intro e he
    rcases List.mem_append.mp he with he | he
    · exact hs.encodable e he
    · exact completed_subset henc _ e he
  -- a session that completes a line has found no beginning of one
  have hempty : completed c x.events x.cut ≠ [] → fragments = [] := by
    intro hne
    by_contra hf
    have hflat : fragments.flatten ≠ [] := by
      cases fragments with
      | nil => exact (hf rfl).elim
      | cons b bs => simp [(hfrag b (by simp)).1]
    exact not_terminated_append hflat (newline_notMem_flatten hc hfrag) (hfile ▸ halign hne)
  have hlines : s.file ++ ((completed c x.events x.cut).flatMap (line c) ++ tail) =
      (s.complete ++ completed c x.events x.cut).flatMap (line c) ++
        (fragments.flatten ++ tail) := by
    by_cases hne : completed c x.events x.cut = []
    · simp [hne, hfile]
    · simp [hempty hne, hfile]
  simp only [after, hcut]
  by_cases ht : tail = []
  · refine ⟨fragments, ?_, hfrag, ?_⟩
    · simpa [ht] using hlines
    · intro hne
      have := htorn hne
      split <;> omega
  · have hb : Fragment c tail := htail.resolve_left ht
    refine ⟨fragments ++ [tail], ?_, ?_, ?_⟩
    · simpa using hlines
    · intro b hb'
      rcases List.mem_append.mp hb' with hb' | hb'
      · exact hfrag b hb'
      · rw [List.mem_singleton.mp hb']
        exact ⟨ht, hb⟩
    · intro _
      rw [if_neg (not_terminated_append ht (hb.newline_notMem hc))]
      omega

theorem framed_reachable (hc : c.Lawful) (h : Reachable (AlignedStep c) initial s) :
    Framed c s :=
  h.invariant ⟨by simp [initial], [], rfl, by simp, by simp⟩
    fun hs hstep => framed_step hc hstep hs

/-- The beginnings of event texts, one behind the other, are not a valid text with a number
beyond every `double`: their numbers are beginnings of numbers that were written. -/
def CutsInRange (c : Codec) : Prop :=
  ∀ fragments : List Bytes, (∀ b ∈ fragments, Fragment c b) → ¬ Overflowing c fragments.flatten

theorem decodeAll_append {texts texts' : List Bytes} {os os' : List (Option MarketEvent)}
    (h : decodeAll c texts = .ok os) (h' : decodeAll c texts' = .ok os') :
    decodeAll c (texts ++ texts') = .ok (os ++ os') := by
  rw [decodeAll] at h h' ⊢
  simp [List.mapM_append, h, h', bind, Except.bind, pure, Except.pure]

/-- The cut part of the file is at most one record. -/
theorem records_tail (hb : newline ∉ b) :
    ReplaySource.records b = if b = [] then [] else [b] := by
  by_cases h : b = []
  · simp [h, ReplaySource.records, lines]
  · simp [ReplaySource.records, lines_unterminated h hb, h]

/-- As long as every session that completes a line begins behind the end of one, the replay
delivers every event whose line is complete, and counts at most the torn sessions. -/
theorem aligned_sessions_replay (hc : c.Lawful) (hcut : CutsInRange c) {s : State}
    (h : Reachable (AlignedStep c) initial s) (clock : ℕ → Int64) :
    ∃ delivered final, ReplaySource.drain c clock (.start s.file) = .ok (delivered, final) ∧
      s.complete.map MarketEvent.timeless <+: delivered.map MarketEvent.timeless ∧
      final.linesMalformed ≤ s.torn := by
  obtain ⟨henc, fragments, hfile, hfrag, htorn⟩ := framed_reachable hc h
  have hlines := records_capture hc henc fragments.flatten
  rw [← hfile, records_tail (newline_notMem_flatten hc hfrag)] at hlines
  obtain ⟨os, hos, hcount⟩ : ∃ os, decodeAll c (if fragments.flatten = [] then []
      else [fragments.flatten]) = .ok os ∧ os.countP (·.isNone) ≤ s.torn := by
    by_cases hnil : fragments.flatten = []
    · exact ⟨[], by simp [hnil, decodeAll, pure, Except.pure], by simp⟩
    · have hsafe : ∀ text ∈ [fragments.flatten], ¬ Overflowing c text := by
        simpa using hcut fragments fun b hb => (hfrag b hb).2
      refine ⟨_, by simpa [hnil] using decodeAll_eq hsafe, ?_⟩
      have hpos : 0 < s.torn := htorn fun hf => hnil (by simp [hf])
      exact List.countP_le_length.trans hpos
  have hall := decodeAll_append (decodeAll_text hc henc) hos
  rw [← hlines] at hall
  obtain ⟨delivered, hd, heq⟩ := ReplaySource.drain_ok (r := .start s.file) clock hall
  refine ⟨delivered, _, hd, ?_, ?_⟩
  · rw [heq, List.reduceOption_append]
    refine ⟨os.reduceOption, ?_⟩
    simp [List.reduceOption, List.filterMap_map]
  · simpa [ReplaySource.start, List.countP_append, List.countP_eq_zero.mpr] using hcount

/-- An event's object has numbers and strings only, and its first key begins with a letter. -/
theorem record_toJson {e : MarketEvent} (he : e.Encodable) :
    ∃ k v ms, marketEventToJson e = .object ((k, v) :: ms) ∧ Record k v ms := by
  obtain ⟨-, hfin, hsort⟩ := he.printable
  rw [marketEventToJson_eq] at hfin hsort
  refine ⟨_, _, _, marketEventToJson_eq e, rfl, ?_, hfin, hsort, ?_⟩
  · intro m hm
    simp only [List.mem_cons, List.mem_append, List.mem_map, List.not_mem_nil, or_false] at hm
    rcases hm with rfl | ⟨n, -, rfl⟩ | rfl | rfl
    · exact he.price_finite
    · rfl
    · rfl
    · rfl
  · have hhead : ((utf8 "event_time_ms").flatMap escape ++ [34]).head? = some 101 := by decide
    intro c hc
    obtain rfl : 101 = c := Option.some.inj (hhead.symm.trans hc)
    decide

theorem torn_flatten {fragments : List Bytes} (h : ∀ b ∈ fragments, Fragment compact b) :
    Torn fragments.flatten := by
  induction fragments with
  | nil => exact torn_nil
  | cons b fragments ih =>
    obtain ⟨e, he, hb⟩ := h b (by simp)
    obtain ⟨k, v, ms, hj, hrec⟩ := record_toJson he
    have hrest := ih fun b hb => h b (List.mem_cons_of_mem _ hb)
    exact torn_cut hrec hrest (hj ▸ hb)

theorem compact_cutsInRange : CutsInRange compact := by
  rintro fragments h ⟨-, hover⟩
  have htorn := torn_flatten h
  generalize fragments.flatten = b at htorn hover
  simp only [compact, parseText] at hover
  split at hover
  · next j hp => simp [(htorn.value (by omega) hp).1] at hover
  · simp at hover

theorem sampleEvents_encodable : ∀ e ∈ [sampleEvent, sampleEvent], e.Encodable := by
  simpa using sampleEvent_encodable

/-- The first session is cut within its second line, and the next one within its first. -/
theorem aligned_sessions_replay_sample :
    ∃ (s : State) (delivered : List MarketEvent) (final : ReplaySource),
      s.complete = [sampleEvent] ∧ s.torn = 2 ∧
      ReplaySource.drain compact (fun _ => 5) (.start s.file) = .ok (delivered, final) ∧
      s.complete.map MarketEvent.timeless <+: delivered.map MarketEvent.timeless ∧
      final.linesMalformed ≤ s.torn := by
  have h₁ : Reachable (AlignedStep compact) initial
      (after compact initial ⟨[sampleEvent, sampleEvent], 120⟩) :=
    (Reachable.refl _).snoc ⟨.session sampleEvents_encodable (append_eq sampleEvents_encodable _),
      fun _ => Or.inl rfl⟩
  have hnone : completed compact [sampleEvent, sampleEvent] 3 = [] := by decide +kernel
  have hstep : ∀ s, AlignedStep compact s ⟨[sampleEvent, sampleEvent], 3⟩
      (after compact s ⟨[sampleEvent, sampleEvent], 3⟩) := by
    intro s
    refine ⟨.session sampleEvents_encodable (append_eq sampleEvents_encodable s), ?_⟩
    intro hne
    exact (hne hnone).elim
  have h₂ := h₁.snoc (hstep _)
  obtain ⟨delivered, final, hd, hpre, hle⟩ :=
    aligned_sessions_replay compact_lawful compact_cutsInRange h₂ (fun _ => 5)
  exact ⟨_, delivered, final, by decide +kernel, by decide +kernel, hd, hpre, hle⟩

/-- A session crashes one byte into its line; the line that the next session completes is
glued to that byte and is lost. -/
theorem glued_line_lost :
    ∃ s : State, Reachable (Step compact) initial s ∧ s.complete = [sampleEvent] ∧ s.torn = 1 ∧
      ReplaySource.drain compact (fun _ => 5) (.start s.file) = .ok ([], ⟨[], 1⟩) := by
  have henc : ∀ e ∈ [sampleEvent], e.Encodable := by
    simpa using sampleEvent_encodable
  have h₁ : Reachable (Step compact) initial (after compact initial ⟨[sampleEvent], 1⟩) :=
    (Reachable.refl _).snoc (.session henc (append_eq henc _))
  have h₂ := h₁.snoc (a := ⟨[sampleEvent], 114⟩) (.session henc (append_eq henc _))
  refine ⟨_, h₂, by decide +kernel, by decide +kernel, ?_⟩
  have hrec : decodeAll compact (ReplaySource.records (after compact (after compact initial
      ⟨[sampleEvent], 1⟩) ⟨[sampleEvent], 114⟩).file) = .ok [none] := by decide +kernel
  obtain ⟨delivered, hd, heq⟩ := ReplaySource.drain_ok (r := .start _) (fun _ => 5) hrec
  obtain rfl : delivered = [] := by simpa using heq
  exact hd

end TickForge.TornWrites
