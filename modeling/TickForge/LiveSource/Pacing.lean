import TickForge.LiveSource.Stop

/-! How far apart the attempts to connect are. -/
namespace TickForge.LiveSource

open ByteString Transition

variable {cfg : LiveSourceConfig} {parse : Bytes → Option MarketEvent} {s t : State}
  {a : Action} {r pc : Reader} {xs : List Action}

/-- A backoff sleep lies between any two attempts to connect. -/
def Paced (cfg : LiveSourceConfig) (xs : List Action) : Prop :=
  ∀ ys zs ws, xs = ys ++ .connectOnce :: (zs ++ .connectOnce :: ws) →
    ∃ ms, .sleep ms ∈ zs ∧ cfg.initialBackoff ≤ ms

/-- A backoff sleep has followed the last attempt, if there was one. -/
def Rested (cfg : LiveSourceConfig) (xs : List Action) : Prop :=
  ∀ ys zs, xs = ys ++ .connectOnce :: zs → ∃ ms, .sleep ms ∈ zs ∧ cfg.initialBackoff ≤ ms

/-- No sleep has followed the last attempt. -/
def Unrested (xs : List Action) : Prop :=
  ∃ ys zs, xs = ys ++ .connectOnce :: zs ∧ ∀ ms, .sleep ms ∉ zs

theorem rested_nil : Rested cfg [] := by
  intro ys zs h
  simp at h

theorem rested_snoc (hr : Rested cfg xs) (ha : a ≠ .connectOnce) : Rested cfg (xs ++ [a]) := by
  intro ys zs h
  rcases snoc_eq_append_cons h with ⟨-, hc, -⟩ | ⟨zs', rfl, hx⟩
  · exact (ha hc).elim
  · obtain ⟨ms, hm, hle⟩ := hr ys zs' hx
    exact ⟨ms, List.mem_append_left _ hm, hle⟩

theorem rested_sleep {ms : ℕ} (h : cfg.initialBackoff ≤ ms) : Rested cfg (xs ++ [.sleep ms]) := by
  intro ys zs he
  rcases snoc_eq_append_cons he with ⟨-, hc, -⟩ | ⟨zs', rfl, -⟩
  · simp at hc
  · exact ⟨ms, by simp, h⟩

theorem paced_nil : Paced cfg [] := by
  intro ys zs ws h
  simp at h

theorem paced_snoc (hp : Paced cfg xs) (hr : a = .connectOnce → Rested cfg xs) :
    Paced cfg (xs ++ [a]) := by
  intro ys zs ws h
  rw [← List.cons_append, ← List.append_assoc] at h
  rcases snoc_eq_append_cons h with ⟨-, hc, hx⟩ | ⟨ws', -, hx⟩
  · exact hr hc ys zs hx
  · exact hp ys zs ws' (by simpa using hx)

theorem unrested_snoc (hu : Unrested xs) (ha : ∀ ms, a ≠ .sleep ms) : Unrested (xs ++ [a]) := by
  obtain ⟨ys, zs, rfl, hz⟩ := hu
  refine ⟨ys, zs ++ [a], by simp, ?_⟩
  intro ms hm
  rcases List.mem_append.mp hm with hm | hm
  · exact hz ms hm
  · exact ha ms (List.mem_singleton.mp hm).symm

theorem unrested_connectOnce : Unrested (xs ++ [.connectOnce]) :=
  ⟨xs, [], rfl, by simp⟩

/-- From an attempt to connect to its success or to the sleep after it. -/
def Reader.attempting : Reader → Bool
  | .resolve | .setHostName | .connect | .tlsHandshake | .wsHandshake | .lockPublish
  | .publishTest | .emplace | .setConnected | .connectThrew | .connectFailed | .sleep => true
  | _ => false

/-- In the loop of `ensureConnected()`. -/
def Reader.retrying (r : Reader) : Bool := r.attempting || r == .retryTest

/-- Where `connected_` is about to be given up, or is not looked at any more. -/
def Reader.leaving : Reader → Bool
  | .retryTest | .readError | .dropConnected => true
  | _ => false

/-- On the way to a read, and in it. -/
def Reader.onStream : Reader → Bool
  | .countReconnect | .lockStream | .checkStream | .read => true
  | _ => false

theorem Reader.retrying_of_attempting (h : r.attempting = true) : r.retrying = true := by
  simp [Reader.retrying, h]

theorem Move.attempting (h : Move parse s r pc) : pc.attempting = r.attempting := by
  cases h with
  | threw hr => cases r <;> simp_all [Reader.throws, Reader.attempting]
  | _ => rfl

theorem Move.retrying (h : Move parse s r pc) : pc.retrying = r.retrying := by
  cases h with
  | threw hr => cases r <;> simp_all [Reader.throws, Reader.retrying, Reader.attempting]
  | _ => rfl

theorem Move.onStream (h : Move parse s r pc) (hpc : pc.onStream = true) :
    r.onStream = true ∨ s.connected = true := by
  cases h <;> simp_all [Reader.onStream]

/-- The reader loses its connection only at a failed read. -/
theorem Move.leaving (h : Move parse s r pc) (hws : s.ws.isSome = true)
    (hpc : pc.leaving = true) : r = .read ∧ pc = .readError := by
  cases h <;> simp_all [Reader.leaving]

/-- What the position of the reader says about `connected_` and `backoff`. -/
structure Linked (cfg : LiveSourceConfig) (s : State) : Prop where
  on : s.reader.onStream = true → s.connected = true
  off : s.reader.retrying = true → s.connected = false
  initialBackoff : s.reader.retrying = true → cfg.initialBackoff ≤ s.backoff
  maxBackoff : s.reader.retrying = true → s.backoff ≤ cfg.maxBackoff

theorem linked_initial : Linked cfg initial := by
  constructor <;> simp [initial, Reader.onStream, Reader.retrying, Reader.attempting]

theorem linked_step (hcfg : cfg.initialBackoff ≤ cfg.maxBackoff) (h : Step cfg parse s a t)
    (hs : Linked cfg s) : Linked cfg t := by
  obtain ⟨hon, hoff, hmin, hmax⟩ := hs
  cases h with
  | move hr hm =>
    subst hr
    refine ⟨?_, hm.retrying ▸ hoff, hm.retrying ▸ hmin, hm.retrying ▸ hmax⟩
    intro hpc
    rcases hm.onStream hpc with hr | hc
    · exact hon hr
    · exact hc
  | requestStop _ | lockStop _ _ | closeSocket _ => exact ⟨hon, hoff, hmin, hmax⟩
  | notConnected hr hc => exact ⟨by rintro ⟨⟩, fun _ => hc, fun _ => Nat.le_refl _, fun _ => hcfg⟩
  | connectOnce hr _ | resolved hr | hostNameRefused hr | discard hr _ | emplace hr =>
    have hretry : s.reader.retrying = true := by rw [hr]; rfl
    exact ⟨by rintro ⟨⟩, fun _ => hoff hretry, fun _ => hmin hretry, fun _ => hmax hretry⟩
  | connectThrew hr =>
    have hretry : s.reader.retrying = true := by rw [hr]; rfl
    exact ⟨by rintro ⟨⟩, fun _ => rfl, fun _ => hmin hretry, fun _ => hmax hretry⟩
  | sleep hr =>
    have hretry : s.reader.retrying = true := by rw [hr]; rfl
    have hle := hmin hretry
    refine ⟨by rintro ⟨⟩, fun _ => hoff hretry, fun _ => ?_, fun _ => ?_⟩
    · simp only
      omega
    · simp only
      omega
  | setConnected hr => exact ⟨fun _ => rfl, by rintro ⟨⟩, by rintro ⟨⟩, by rintro ⟨⟩⟩
  | countReconnect hr =>
    have hstream : s.reader.onStream = true := by rw [hr]; rfl
    exact ⟨fun _ => hon hstream, by rintro ⟨⟩, by rintro ⟨⟩, by rintro ⟨⟩⟩
  | stopSeen _ _ | dropConnected _ | frame _ _ _ | readError _ | countReceived _
    | countMalformed _ | deliver _ => constructor <;> rintro ⟨⟩

/-- An attempt ends in a connection, a sleep, or a return because of `stop()`. -/
theorem attempting_step (h : Step cfg parse s a t) (hs : s.reader.attempting = true) :
    t.reader.attempting = true ∨ t.reader = .countReconnect ∨ a = .sleep s.backoff ∨
      t.stopRequested = true := by
  cases h with
  | move hr hm =>
    subst hr
    exact Or.inl (hm.attempting ▸ hs)
  | requestStop _ | lockStop _ _ | closeSocket _ => exact Or.inl hs
  | connectOnce _ _ | resolved _ | hostNameRefused _ | discard _ _ | emplace _ | connectThrew _ =>
    exact Or.inl rfl
  | setConnected _ => exact Or.inr (Or.inl rfl)
  | sleep _ => exact Or.inr (Or.inr (Or.inl rfl))
  | stopSeen _ hstop => exact Or.inr (Or.inr (Or.inr hstop))
  | notConnected hr _ | countReconnect hr | dropConnected hr | frame _ _ hr | readError hr
    | countReceived hr | countMalformed hr | deliver hr =>
    simp [hr, Reader.attempting] at hs

/-- A connection is given up only where a read has failed. -/
theorem connected_step (h : Step cfg parse s a t) (hc : Consistent s) (hs : s.connected = true)
    (hleave : s.reader.leaving = false) (hretry : s.reader.retrying = false) :
    (t.connected = true ∧ t.reader.leaving = false ∧ t.reader.retrying = false) ∨
      (s.reader = .read ∧ t.reader = .readError) := by
  cases h with
  | move hr hm =>
    subst hr
    cases hpc : (s.setReader _).reader.leaving with
    | false => exact Or.inl ⟨hs, rfl, hm.retrying.trans hretry⟩
    | true => exact Or.inr (hm.leaving (hc.connected hs) hpc)
  | requestStop _ | lockStop _ _ | closeSocket _ => exact Or.inl ⟨hs, hleave, hretry⟩
  | notConnected _ hn => simp [hs] at hn
  | connectOnce hr _ | resolved hr | hostNameRefused hr | discard hr _ | emplace hr
    | setConnected hr | connectThrew hr | sleep hr =>
    rw [hr] at hretry
    cases hretry
  | dropConnected hr | readError hr =>
    rw [hr] at hleave
    cases hleave
  | stopSeen _ _ | countReconnect _ | frame _ _ _ | countReceived _ | countMalformed _
    | deliver _ => exact Or.inl ⟨hs, rfl, rfl⟩

/-- No read fails before `stop()` has set its flag. -/
def SteadyStep (cfg : LiveSourceConfig) (parse : Bytes → Option MarketEvent) (s : State)
    (a : Action) (t : State) : Prop :=
  Step cfg parse s a t ∧ (s.reader = .read → t.reader = .readError → s.stopRequested = true)

/-- Why the next attempt, if there is one, comes after a sleep. -/
def Spaced (cfg : LiveSourceConfig) (xs : List Action) (s : State) : Prop :=
  s.stopRequested = true ∨ Rested cfg xs ∨ s.reader.attempting = true ∨
    (s.connected = true ∧ s.reader.leaving = false ∧ s.reader.retrying = false)

theorem stopRequested_persists (h : Step cfg parse s a t) (hs : s.stopRequested = true) :
    t.stopRequested = true := by
  rcases stopRequested_step h with heq | rfl
  · rw [heq, hs]
  · cases h
    rfl

theorem spaced_connectOnce (h : Step cfg parse s .connectOnce t) (hs : Spaced cfg xs s) :
    Rested cfg xs ∧ t.reader.attempting = true := by
  cases h with
  | connectOnce hr hstop =>
    refine ⟨?_, rfl⟩
    rcases hs with hs | hs | hs | ⟨-, hs, -⟩
    · simp [hstop] at hs
    · exact hs
    · simp [hr, Reader.attempting] at hs
    · simp [hr, Reader.leaving] at hs

theorem spaced_step (h : SteadyStep cfg parse s a t) (hc : Consistent s) (hl : Linked cfg s)
    (hl' : Linked cfg t) (hs : Spaced cfg xs s) : Spaced cfg (xs ++ [a]) t := by
  obtain ⟨hstep, hsteady⟩ := h
  by_cases ha : a = .connectOnce
  · subst ha
    exact Or.inr (Or.inr (Or.inl (spaced_connectOnce hstep hs).2))
  rcases hs with hs | hs | hs | ⟨hs, hleave, hretry⟩
  · exact Or.inl (stopRequested_persists hstep hs)
  · exact Or.inr (Or.inl (rested_snoc hs ha))
  · rcases attempting_step hstep hs with ht | ht | rfl | ht
    · exact Or.inr (Or.inr (Or.inl ht))
    · have hon := hl'.on (by rw [ht]; rfl)
      exact Or.inr (Or.inr (Or.inr ⟨hon, by rw [ht]; rfl, by rw [ht]; rfl⟩))
    · exact Or.inr (Or.inl (rested_sleep (hl.initialBackoff (Reader.retrying_of_attempting hs))))
    · exact Or.inl ht
  · rcases connected_step hstep hc hs hleave hretry with ht | ⟨hr, hr'⟩
    · exact Or.inr (Or.inr (Or.inr ht))
    · exact Or.inl (stopRequested_persists hstep (hsteady hr hr'))

theorem paced_trace (hcfg : cfg.initialBackoff ≤ cfg.maxBackoff)
    (h : Trace (SteadyStep cfg parse) initial xs s) : Paced cfg xs := by
  have hinv := h.invariant
    (P := fun xs s => Consistent s ∧ Linked cfg s ∧ Spaced cfg xs s ∧ Paced cfg xs)
    ⟨consistent_initial, linked_initial, Or.inr (Or.inl rested_nil), paced_nil⟩ ?_
  · exact hinv.2.2.2
  · rintro xs t a u ⟨hc, hl, hs, hp⟩ hstep
    have hl' := linked_step hcfg hstep.1 hl
    refine ⟨consistent_step hstep.1 hc, hl', spaced_step hstep hc hl hl' hs, paced_snoc hp ?_⟩
    rintro rfl
    exact (spaced_connectOnce hstep.1 hs).1

/-- Every sleep of every run is in the configured range. -/
theorem sleep_trace (hcfg : cfg.initialBackoff ≤ cfg.maxBackoff)
    (h : Trace (Step cfg parse) initial xs s) :
    ∀ ms, .sleep ms ∈ xs → cfg.initialBackoff ≤ ms ∧ ms ≤ cfg.maxBackoff := by
  have hinv := h.invariant
    (P := fun xs s => Linked cfg s ∧
      ∀ ms, .sleep ms ∈ xs → cfg.initialBackoff ≤ ms ∧ ms ≤ cfg.maxBackoff)
    ⟨linked_initial, by simp⟩ ?_
  · exact hinv.2
  · rintro xs t a u ⟨hl, hs⟩ hstep
    refine ⟨linked_step hcfg hstep hl, ?_⟩
    intro ms hm
    rcases List.mem_append.mp hm with hm | hm
    · exact hs ms hm
    · obtain rfl := List.mem_singleton.mp hm
      cases hstep with
      | sleep hr =>
        have hretry : t.reader.retrying = true := by rw [hr]; rfl
        exact ⟨hl.initialBackoff hretry, hl.maxBackoff hretry⟩

/-- An attempt, or a connection, begins with `connectOnce()`. -/
theorem attempt_begins (h : Step cfg parse s a t)
    (ht : t.reader.attempting = true ∨ t.connected = true) :
    a = .connectOnce ∨ s.reader.attempting = true ∨ s.connected = true := by
  cases h with
  | move hr hm =>
    subst hr
    rcases ht with ht | ht
    · exact Or.inr (Or.inl (hm.attempting ▸ ht))
    · exact Or.inr (Or.inr ht)
  | requestStop _ | lockStop _ _ | closeSocket _ => exact Or.inr ht
  | connectOnce _ _ => exact Or.inl rfl
  | resolved hr | hostNameRefused hr | discard hr _ | emplace hr | setConnected hr
    | connectThrew hr | sleep hr => exact Or.inr (Or.inl (by rw [hr]; rfl))
  | dropConnected _ | readError _ => rcases ht with ht | ht <;> cases ht
  | stopSeen _ _ | notConnected _ _ | countReconnect _ | frame _ _ _ | countReceived _
    | countMalformed _ | deliver _ =>
    rcases ht with ht | ht
    · cases ht
    · exact Or.inr (Or.inr ht)

/-- After a sleep the reader neither attempts to connect nor is connected. -/
theorem sleep_leaves {ms : ℕ} (h : Step cfg parse s (.sleep ms) t) (hl : Linked cfg s) :
    t.reader.attempting = false ∧ t.connected = false := by
  cases h with
  | sleep hr => exact ⟨rfl, hl.off (by rw [hr]; rfl)⟩

/-- No sleep lies between an attempt that succeeds and the end of its connection. -/
theorem unrested_trace (hcfg : cfg.initialBackoff ≤ cfg.maxBackoff)
    (h : Trace (Step cfg parse) initial xs s) :
    Linked cfg s ∧ (s.reader.attempting = true ∨ s.connected = true → Unrested xs) := by
  refine h.invariant
    (P := fun xs s => Linked cfg s ∧
      (s.reader.attempting = true ∨ s.connected = true → Unrested xs))
    ⟨linked_initial, by simp [initial, Reader.attempting]⟩ ?_
  rintro xs t a u ⟨hl, hs⟩ hstep
  refine ⟨linked_step hcfg hstep hl, ?_⟩
  intro hu
  rcases attempt_begins hstep hu with rfl | ht
  · exact unrested_connectOnce
  · refine unrested_snoc (hs ht) ?_
    rintro ms rfl
    obtain ⟨hat, hcon⟩ := sleep_leaves hstep hl
    simp [hat, hcon] at hu

/-- After a read that fails the next attempt can follow at once. -/
theorem reconnect_trace {u : State} (h : Trace (Step cfg parse) u xs s) (hr : s.reader = .readError)
    (hstop : s.stopRequested = false) :
    ∃ t, Trace (Step cfg parse) u
      (xs ++ [.reader, .reader, .reader, .reader, .connectOnce]) t := by
  have h₁ : Trace (Step cfg parse) s _ _ := .single (.readError hr)
  have h₂ := h₁.snoc (.move rfl (.reconnect hstop))
  have h₃ := h₂.snoc (.move rfl (.loop hstop))
  have h₄ := h₃.snoc (.notConnected rfl rfl)
  have h₅ := h₄.snoc (.connectOnce rfl hstop)
  exact ⟨_, h.append h₅⟩

theorem not_paced_of_unrested (hu : Unrested xs) :
    ¬ Paced cfg (xs ++ [.reader, .reader, .reader, .reader, .reader, .connectOnce]) := by
  obtain ⟨ys, zs, rfl, hz⟩ := hu
  intro hp
  obtain ⟨ms, hm, -⟩ := hp ys (zs ++ [.reader, .reader, .reader, .reader, .reader]) [] (by simp)
  simp [hz ms] at hm

/-- Reconnects are paced as long as no read fails; the first read that does may be followed
by an attempt without a sleep. The sleeps themselves are always in range. -/
theorem reconnects_paced_without_read_failure (cfg : LiveSourceConfig)
    (parse : Bytes → Option MarketEvent) (hcfg : cfg.initialBackoff ≤ cfg.maxBackoff) :
    (∀ xs s, Trace (SteadyStep cfg parse) initial xs s → Paced cfg xs) ∧
    (∀ xs s, Trace (Step cfg parse) initial xs s →
      ∀ ms, .sleep ms ∈ xs → cfg.initialBackoff ≤ ms ∧ ms ≤ cfg.maxBackoff) ∧
    (∀ xs s t, Trace (Step cfg parse) initial xs s → Step cfg parse s .reader t →
      ¬ (s.reader = .read → t.reader = .readError → s.stopRequested = true) →
      ∃ ys u, Trace (Step cfg parse) t ys u ∧ ¬ Paced cfg (xs ++ .reader :: ys)) := by
  refine ⟨?_, ?_, ?_⟩
  · intro xs s h
    exact paced_trace hcfg h
  · intro xs s h
    exact sleep_trace hcfg h
  · intro xs s t h hstep hn
    simp only [Classical.not_imp, Bool.not_eq_true] at hn
    obtain ⟨hr, hr', hstop⟩ := hn
    obtain ⟨hl, hun⟩ := unrested_trace hcfg h
    have hstop' : t.stopRequested = false := by
      rcases stopRequested_step hstep with heq | heq
      · rw [heq, hstop]
      · cases heq
    obtain ⟨u, hu⟩ := reconnect_trace .refl hr' hstop'
    exact ⟨_, u, hu, not_paced_of_unrested (hun (Or.inr (hl.on (by rw [hr]; rfl))))⟩

theorem steady_of_step (h : Step cfg parse s a t) (hr : s.reader ≠ .read) :
    SteadyStep cfg parse s a t :=
  ⟨h, fun hread => (hr hread).elim⟩

/-- A name that does not resolve: the second attempt comes a second later. -/
theorem reconnects_paced_after_failed_resolve :
    ∃ s, Trace (SteadyStep {} fun _ => none) initial
        [.reader, .reader, .reader, .connectOnce, .reader, .reader, .reader, .sleep 1000,
          .connectOnce] s ∧
      Paced {} [.reader, .reader, .reader, .connectOnce, .reader, .reader, .reader, .sleep 1000,
        .connectOnce] := by
  have h₁ : Trace (SteadyStep {} fun _ => none) initial _ _ :=
    .single (steady_of_step (.move rfl .call) (by decide))
  have h₂ := h₁.snoc (steady_of_step (.move rfl (.loop rfl)) (by decide))
  have h₃ := h₂.snoc (steady_of_step (.notConnected rfl rfl) (by decide))
  have h₄ := h₃.snoc (steady_of_step (.connectOnce rfl rfl) (by decide))
  have h₅ := h₄.snoc (steady_of_step (.move rfl (.threw rfl)) (by decide))
  have h₆ := h₅.snoc (steady_of_step (.connectThrew rfl) (by decide))
  have h₇ := h₆.snoc (steady_of_step (.move rfl (.retry rfl)) (by decide))
  have h₈ := h₇.snoc (steady_of_step (.sleep rfl) (by decide))
  have h₉ := h₈.snoc (steady_of_step (.connectOnce rfl rfl) (by decide))
  exact ⟨_, h₉, (reconnects_paced_without_read_failure {} (fun _ => none) (by decide)).1 _ _ h₉⟩

/-- A server that accepts the connection and fails the first read is dialled again at once. -/
theorem reconnects_unpaced_after_failed_read :
    ∃ (xs : List Action) (s : State), Trace (Step {} fun _ => none) initial xs s ∧
      xs.count .connectOnce = 2 ∧ (∀ ms, .sleep ms ∉ xs) ∧ ¬ Paced {} xs := by
  have h₁ : Trace (Step {} fun _ => none) initial _ _ := .single (.move rfl .call)
  have h₂ := h₁.snoc (.move rfl (.loop rfl))
  have h₃ := h₂.snoc (.notConnected rfl rfl)
  have h₄ := h₃.snoc (.connectOnce rfl rfl)
  have h₅ := h₄.snoc (.resolved rfl)
  have h₆ := h₅.snoc (.move rfl .hostNameSet)
  have h₇ := h₆.snoc (.move rfl .tcpConnected)
  have h₈ := h₇.snoc (.move rfl .tlsDone)
  have h₉ := h₈.snoc (.move rfl .wsDone)
  have h₁₀ := h₉.snoc (.move rfl (.lockPublish (by decide)))
  have h₁₁ := h₁₀.snoc (.move rfl (.publish rfl))
  have h₁₂ := h₁₁.snoc (.emplace rfl)
  have h₁₃ := h₁₂.snoc (.setConnected rfl)
  have h₁₄ := h₁₃.snoc (.countReconnect rfl)
  have h₁₅ := h₁₄.snoc (.move rfl (.lockStream (by decide)))
  have h₁₆ := h₁₅.snoc (.move rfl (.hasStream rfl))
  have h₁₇ := h₁₆.snoc (.move rfl .readFailed)
  obtain ⟨s, hs⟩ := reconnect_trace h₁₇ rfl rfl
  refine ⟨_, s, hs, rfl, by simp, ?_⟩
  intro hp
  obtain ⟨ms, hm, -⟩ := hp [.reader, .reader, .reader] (List.replicate 17 .reader) [] rfl
  simp at hm

end TickForge.LiveSource
