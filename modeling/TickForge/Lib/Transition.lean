import Mathlib.Data.List.Induction
import Mathlib.Order.Bounds.Basic

/-! Labelled transition systems: histories, invariants over whole runs, and bounded progress. -/
namespace Transition

variable {σ ι : Type*} {step : σ → ι → σ → Prop} {s t u : σ} {a : ι} {xs ys : List ι}

/-- A finite run with its labels in order. New steps extend the history at its end. -/
inductive Trace (step : σ → ι → σ → Prop) (s : σ) : List ι → σ → Prop where
  | refl : Trace step s [] s
  | snoc {t u : σ} {xs : List ι} {a : ι} :
      Trace step s xs t → step t a u → Trace step s (xs ++ [a]) u

def Reachable (step : σ → ι → σ → Prop) (s t : σ) : Prop := ∃ xs, Trace step s xs t

/-- No label is enabled. -/
def Stuck (step : σ → ι → σ → Prop) (s : σ) : Prop := ∀ a t, ¬ step s a t

theorem Trace.single (h : step s a t) : Trace step s [a] t := .snoc .refl h

theorem Trace.append (h : Trace step s xs t) (k : Trace step t ys u) :
    Trace step s (xs ++ ys) u := by
  induction k with
  | refl => simpa using h
  | snoc _ hs ih => simpa using Trace.snoc ih hs

theorem Trace.snoc_inv (h : Trace step s (xs ++ [a]) u) :
    ∃ t, Trace step s xs t ∧ step t a u := by
  generalize hz : xs ++ [a] = zs at h
  cases h with
  | refl => simp at hz
  | snoc hx hs =>
    obtain ⟨rfl, hb⟩ := List.append_inj' hz rfl
    cases hb
    exact ⟨_, hx, hs⟩

/-- A history can be cut anywhere. -/
theorem Trace.split (h : Trace step s (xs ++ ys) u) :
    ∃ t, Trace step s xs t ∧ Trace step t ys u := by
  induction ys using List.reverseRecOn generalizing u with
  | nil => exact ⟨u, by simpa using h, .refl⟩
  | append_singleton ys b ih =>
    rw [← List.append_assoc] at h
    obtain ⟨v, hv, hs⟩ := h.snoc_inv
    obtain ⟨t, hx, hy⟩ := ih hv
    exact ⟨t, hx, .snoc hy hs⟩

/-- An item of an extended history is its last one or lies in what was there before. -/
theorem snoc_eq_append_cons {zs : List ι} {c : ι}
    (h : xs ++ [a] = ys ++ c :: zs) :
    (zs = [] ∧ a = c ∧ xs = ys) ∨ ∃ zs', zs = zs' ++ [a] ∧ xs = ys ++ c :: zs' := by
  rcases List.eq_nil_or_concat zs with rfl | ⟨zs', b, rfl⟩
  · obtain ⟨hx, ha⟩ := List.append_inj' h rfl
    exact Or.inl ⟨rfl, by simpa using ha, hx⟩
  · rw [List.concat_eq_append, ← List.cons_append, ← List.append_assoc] at h
    obtain ⟨hx, ha⟩ := List.append_inj' h rfl
    obtain rfl : a = b := by simpa using ha
    exact Or.inr ⟨zs', by simp, hx⟩

/-- A label in the middle of a history names the step that produced it. -/
theorem Trace.at_label (h : Trace step s (xs ++ a :: ys) u) :
    ∃ t v, Trace step s xs t ∧ step t a v ∧ Trace step v ys u := by
  rw [List.append_cons] at h
  obtain ⟨v, hv, hy⟩ := h.split
  obtain ⟨t, hx, hs⟩ := hv.snoc_inv
  exact ⟨t, v, hx, hs, hy⟩

/-- A property of state and history that every step extends holds along every run. -/
theorem Trace.invariant {P : List ι → σ → Prop} (h : Trace step s xs t) (hi : P [] s)
    (hp : ∀ {xs t a u}, P xs t → step t a u → P (xs ++ [a]) u) : P xs t := by
  induction h with
  | refl => exact hi
  | snoc _ hs ih => exact hp ih hs

theorem Reachable.refl (s : σ) : Reachable step s s := ⟨[], .refl⟩

theorem Reachable.snoc (h : Reachable step s t) (hs : step t a u) : Reachable step s u := by
  obtain ⟨xs, hx⟩ := h
  exact ⟨_, hx.snoc hs⟩

theorem Reachable.trans (h : Reachable step s t) (k : Reachable step t u) :
    Reachable step s u := by
  obtain ⟨xs, hx⟩ := h
  obtain ⟨ys, hy⟩ := k
  exact ⟨_, hx.append hy⟩

/-- A state property that every step preserves holds in every reachable state. -/
theorem Reachable.invariant {P : σ → Prop} (h : Reachable step s t) (hi : P s)
    (hp : ∀ {t a u}, P t → step t a u → P u) : P t := by
  obtain ⟨xs, hx⟩ := h
  exact hx.invariant (P := fun _ t => P t) hi hp

/-- A list can be worked off from its first item to its last where each item can. -/
theorem Reachable.through {α : Type*} {P : List α → σ → Prop} {items : List α}
    (hnext : ∀ before x after s, items = before ++ x :: after → P before s →
      ∃ t, Reachable step s t ∧ P (before ++ [x]) t)
    (hs : P [] s) : ∃ t, Reachable step s t ∧ P items t := by
  induction items using List.reverseRecOn with
  | nil => exact ⟨s, Reachable.refl s, hs⟩
  | append_singleton items x ih =>
    obtain ⟨t, ht, hp⟩ := ih fun before y after u h hp =>
      hnext before y (after ++ [x]) u (by rw [h, List.append_assoc]; rfl) hp
    obtain ⟨u, hu, hq⟩ := hnext items x [] t rfl hp
    exact ⟨u, ht.trans hu, hq⟩

/-- A run is also a run of any system that has its steps. -/
theorem Reachable.mono {step' : σ → ι → σ → Prop} (h : Reachable step s t)
    (hm : ∀ {s a t}, step s a t → step' s a t) : Reachable step' s t :=
  h.invariant (P := Reachable step' s) (Reachable.refl s) fun ht hs => ht.snoc (hm hs)

/-- A finite run with every state it visits, the first and the last included. -/
inductive Visits (step : σ → ι → σ → Prop) (s : σ) : List σ → σ → Prop where
  | refl : Visits step s [s] s
  | snoc {t u : σ} {vs : List σ} {a : ι} :
      Visits step s vs t → step t a u → Visits step s (vs ++ [u]) u

theorem Visits.reachable {vs : List σ} (h : Visits step s vs t) : Reachable step s t := by
  induction h with
  | refl => exact Reachable.refl s
  | snoc _ hs ih => exact ih.snoc hs

/-- A mark `f` that every step raises to the new value of `m`, and no further, is the
largest value of `m` so far. -/
theorem Visits.isGreatest {β : Type*} [LinearOrder β] {m f : σ → β} {vs : List σ}
    (h : Visits step s vs t) (hi : f s = m s)
    (hs : ∀ {t a u}, m t ≤ f t → step t a u → f u = max (f t) (m u)) :
    IsGreatest (m '' {v | v ∈ vs}) (f t) := by
  have hle : ∀ {v}, Reachable step s v → m v ≤ f v := by
    intro v hv
    refine hv.invariant (P := fun v => m v ≤ f v) hi.ge ?_
    intro t a u ht hstep
    rw [hs ht hstep]
    exact le_max_right _ _
  induction h with
  | refl => simp [hi]
  | @snoc t u vs a ht hstep ih =>
    have himage : m '' {v | v ∈ vs ++ [u]} = insert (m u) (m '' {v | v ∈ vs}) := by
      rw [← Set.image_insert_eq]
      congr 1
      ext v
      simp [or_comm]
    rw [himage, hs (hle ht.reachable) hstep, max_comm]
    exact ih.insert (m u)

/-- Every continuation meets `P` within `n` steps, and none stops before that. -/
def Within (step : σ → ι → σ → Prop) (P : σ → Prop) : ℕ → σ → Prop
  | 0, s => P s
  | n + 1, s => P s ∨ ((∃ a t, step s a t) ∧ ∀ a t, step s a t → Within step P n t)

/-- A rank that falls at every step bounds the distance to `P`, provided that
every state satisfying the invariant is at `P` or has a step. -/
theorem within_of_rank {P I : σ → Prop} (rank : σ → ℕ)
    (hp : ∀ {s a t}, I s → step s a t → I t)
    (hr : ∀ {s a t}, I s → step s a t → rank t < rank s)
    (hd : ∀ {s}, I s → P s ∨ ∃ a t, step s a t) :
    ∀ {n s}, I s → rank s ≤ n → Within step P n s := by
  intro n
  induction n with
  | zero =>
    intro s hi hn
    rcases hd hi with h | ⟨a, t, h⟩
    · exact h
    · have := hr hi h
      omega
  | succ n ih =>
    intro s hi hn
    rcases hd hi with h | h
    · exact Or.inl h
    · refine Or.inr ⟨h, ?_⟩
      intro a t hs
      have hlt := hr hi hs
      exact ih (hp hi hs) (by omega)

end Transition
