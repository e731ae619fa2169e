import TickForge.Lib.Transition

/-! Simulations with hidden steps, and progress paid for out of a rank. -/
namespace Transition

variable {σ τ ι κ : Type*} {step : σ → ι → σ → Prop} {step' : τ → κ → τ → Prop}
  {f : σ → τ} {g : ι → Option κ} {I P : σ → Prop} {s t : σ} {xs : List ι}

/-- Through `f` a step becomes the step its label names, or disappears when `g` hides
its label. The invariant `I` says which states take part. -/
structure Simulates (step : σ → ι → σ → Prop) (step' : τ → κ → τ → Prop) (f : σ → τ)
    (g : ι → Option κ) (I : σ → Prop) : Prop where
  keeps : ∀ {s a t}, I s → step s a t → I t
  visible : ∀ {s a t b}, I s → step s a t → g a = some b → step' (f s) b (f t)
  hidden : ∀ {s a t}, I s → step s a t → g a = none → f t = f s

theorem Simulates.trace (hs : Simulates step step' f g I) (hi : I s) (h : Trace step s xs t) :
    Trace step' (f s) (xs.filterMap g) (f t) ∧ I t := by
  induction h with
  | refl => exact ⟨.refl, hi⟩
  | @snoc t u xs a _ hstep ih =>
    obtain ⟨ht, hit⟩ := ih
    refine ⟨?_, hs.keeps hit hstep⟩
    rw [List.filterMap_append]
    cases hg : g a with
    | none =>
      rw [List.filterMap_cons_none hg, List.filterMap_nil, List.append_nil,
        hs.hidden hit hstep hg]
      exact ht
    | some b =>
      rw [List.filterMap_cons_some hg, List.filterMap_nil]
      exact ht.snoc (hs.visible hit hstep hg)

theorem Simulates.reachable (hs : Simulates step step' f g I) (hi : I s)
    (h : Reachable step s t) : Reachable step' (f s) (f t) ∧ I t := by
  obtain ⟨xs, hx⟩ := h
  obtain ⟨ht, hit⟩ := hs.trace hi hx
  exact ⟨⟨_, ht⟩, hit⟩

/-- Short of `P` some step that is not free is enabled, and a run has at most `n`
more of these than it has free ones. -/
structure Settles (step : σ → ι → σ → Prop) (free : ι → Bool) (P : σ → Prop) (n : ℕ)
    (s : σ) : Prop where
  moves : ∀ {t}, Reachable step s t → P t ∨ ∃ a u, free a = false ∧ step t a u
  bounded : ∀ {xs t}, Trace step s xs t → xs.countP (fun a => !free a) ≤ n + xs.countP free

/-- A rank that every step lowers, except that a free one may raise it by one, pays for
all the steps of a run. -/
theorem Trace.paid {free : ι → Bool} {rank : σ → ℕ} (h : Trace step s xs t) (hi : I s)
    (hk : ∀ {s a t}, I s → step s a t → I t)
    (hr : ∀ {s a t}, I s → step s a t →
      rank t + (!free a).toNat ≤ rank s + (free a).toNat) :
    xs.countP (fun a => !free a) + rank t ≤ rank s + xs.countP free ∧ I t := by
  induction h with
  | refl => exact ⟨by simp, hi⟩
  | @snoc t u xs a _ hstep ih =>
    obtain ⟨hle, hit⟩ := ih
    refine ⟨?_, hk hit hstep⟩
    have hpay := hr hit hstep
    cases hf : free a <;>
      simp only [hf, Bool.not_true, Bool.not_false, Bool.toNat_true, Bool.toNat_false] at hpay <;>
      simp [List.countP_append, hf] <;> omega

theorem settles_of_rank {free : ι → Bool} {n : ℕ} (rank : σ → ℕ)
    (hk : ∀ {s a t}, I s → step s a t → I t)
    (hr : ∀ {s a t}, I s → step s a t →
      rank t + (!free a).toNat ≤ rank s + (free a).toNat)
    (hm : ∀ {s}, I s → P s ∨ ∃ a u, free a = false ∧ step s a u)
    (hi : I s) (hn : rank s ≤ n) : Settles step free P n s where
  moves h := hm (h.invariant hi hk)
  bounded h := by
    have hle := (h.paid hi hk hr).1
    omega

end Transition
