import Mathlib.Algebra.Ring.Nat
import Mathlib.Data.List.Induction
import Mathlib.Order.Lattice

/-! Counting a stream with an ordered map, one entry a key in the order of the keys, and
sampling it. -/
namespace Histogram

variable {κ : Type*} [LinearOrder κ] {h : List (κ × ℕ)} {j k : κ} {n : ℕ} {xs ys : List κ}

/-- `++counts[k]` on an ordered map: a new key starts at 0. -/
def bump (k : κ) : List (κ × ℕ) → List (κ × ℕ)
  | [] => [(k, 1)]
  | (j, n) :: rest =>
    if k < j then (k, 1) :: (j, n) :: rest
    else if k = j then (j, n + 1) :: rest
    else (j, n) :: bump k rest

/-- All the keys of a list counted one after the other. -/
def histogram (xs : List κ) : List (κ × ℕ) := xs.foldl (fun h k => bump k h) []

/-- The iteration order of the map. -/
def Ordered (h : List (κ × ℕ)) : Prop := h.Pairwise (fun a b => a.1 < b.1)

theorem histogram_concat (xs : List κ) (k : κ) :
    histogram (xs ++ [k]) = bump k (histogram xs) := by
  simp [histogram]

theorem key_bump (h' : (j, n) ∈ bump k h) : j = k ∨ ∃ m, (j, m) ∈ h := by
  induction h with
  | nil =>
    simp only [bump, List.mem_singleton, Prod.mk.injEq] at h'
    exact Or.inl h'.1
  | cons a rest ih =>
    obtain ⟨i, m⟩ := a
    simp only [bump] at h'
    split at h'
    · rcases List.mem_cons.mp h' with he | he
      · exact Or.inl (Prod.mk.inj he).1
      · exact Or.inr ⟨n, he⟩
    · split at h'
      · rcases List.mem_cons.mp h' with he | he
        · rename_i heq
          exact Or.inl ((Prod.mk.inj he).1.trans heq.symm)
        · exact Or.inr ⟨n, List.mem_cons_of_mem _ he⟩
      · rcases List.mem_cons.mp h' with he | he
        · exact Or.inr ⟨m, by rw [(Prod.mk.inj he).1]; exact List.mem_cons_self⟩
        · rcases ih he with hk | ⟨m', hm'⟩
          · exact Or.inl hk
          · exact Or.inr ⟨m', List.mem_cons_of_mem _ hm'⟩

theorem Ordered.bump (ho : Ordered h) (k : κ) : Ordered (bump k h) := by
  induction h with
  | nil => exact List.pairwise_singleton _ _
  | cons a rest ih =>
    obtain ⟨i, m⟩ := a
    obtain ⟨hlt, hrest⟩ := List.pairwise_cons.mp ho
    simp only [Histogram.bump]
    split
    · rename_i hki
      refine List.pairwise_cons.mpr ⟨?_, ho⟩
      intro b hb
      rcases List.mem_cons.mp hb with rfl | hb
      · exact hki
      · exact lt_trans hki (hlt b hb)
    · split
      · exact List.pairwise_cons.mpr ⟨hlt, hrest⟩
      · rename_i hki hne
        refine List.pairwise_cons.mpr ⟨?_, ih hrest⟩
        rintro ⟨j, n⟩ hb
        rcases key_bump hb with rfl | ⟨m', hm'⟩
        · exact lt_of_le_of_ne (not_lt.mp hki) (Ne.symm hne)
        · exact hlt (j, m') hm'

/-- An entry of the map after `++counts[k]`. -/
theorem mem_bump (ho : Ordered h) : (j, n) ∈ bump k h ↔
    (j ≠ k ∧ (j, n) ∈ h) ∨
      (j = k ∧ ((n = 1 ∧ ∀ m, (k, m) ∉ h) ∨ ∃ m, (k, m) ∈ h ∧ n = m + 1)) := by
  induction h with
  | nil => simp [bump]
  | cons a rest ih =>
    obtain ⟨i, m⟩ := a
    obtain ⟨hlt, hrest⟩ := List.pairwise_cons.mp ho
    have hfresh : ∀ l ≤ i, ∀ m', (l, m') ∉ rest := by
      intro l hl m' hm'
      exact absurd (hlt (l, m') hm') (not_lt.mpr hl)
    simp only [bump]
    split
    · rename_i hki
      have hk : ∀ m', (k, m') ∉ rest := hfresh k (le_of_lt hki)
      by_cases hj : j = k
      · subst hj
        simp [hk, ne_of_lt hki]
      · simp [hj]
    · split
      · rename_i heq
        subst heq
        have hk := hfresh k le_rfl
        by_cases hj : j = k
        · subst hj
          simp [hk]
        · simp [hj]
      · rename_i hki hne
        rw [List.mem_cons, ih hrest]
        by_cases hj : j = k
        · subst hj
          simp [hne]
        · simp [hj]

theorem sum_bump (k : κ) (h : List (κ × ℕ)) :
    ((bump k h).map (·.2)).sum = (h.map (·.2)).sum + 1 := by
  induction h with
  | nil => rfl
  | cons a rest ih =>
    obtain ⟨i, m⟩ := a
    simp only [bump]
    split
    · simp only [List.map_cons, List.sum_cons]
      omega
    · split
      · simp only [List.map_cons, List.sum_cons]
        omega
      · simp only [List.map_cons, List.sum_cons, ih]
        omega

theorem ordered_histogram (xs : List κ) : Ordered (histogram xs) := by
  induction xs using List.reverseRecOn with
  | nil => exact List.Pairwise.nil
  | append_singleton xs k ih =>
    rw [histogram_concat]
    exact ih.bump k

/-- The entries are the keys that occur, each with the number of its occurrences. -/
theorem mem_histogram (xs : List κ) (j : κ) (n : ℕ) :
    (j, n) ∈ histogram xs ↔ n = xs.count j ∧ 0 < n := by
  induction xs using List.reverseRecOn generalizing n with
  | nil =>
    simp only [histogram, List.foldl_nil, List.not_mem_nil, List.count_nil, false_iff, not_and]
    omega
  | append_singleton xs k ih =>
    rw [histogram_concat, mem_bump (ordered_histogram xs), List.count_append, List.count_singleton]
    by_cases hj : j = k
    · subst hj
      simp only [ih, ne_eq, not_true, false_and, false_or, true_and, beq_self_eq_true, if_true]
      constructor
      · rintro (⟨rfl, hn⟩ | ⟨m, ⟨rfl, -⟩, rfl⟩)
        · have hzero : xs.count j = 0 := by
            by_contra hpos
            exact hn _ ⟨rfl, Nat.pos_of_ne_zero hpos⟩
          omega
        · omega
      · rintro ⟨rfl, -⟩
        by_cases hzero : xs.count j = 0
        · refine Or.inl ⟨by omega, ?_⟩
          rintro m ⟨rfl, hpos⟩
          omega
        · exact Or.inr ⟨xs.count j, ⟨rfl, Nat.pos_of_ne_zero hzero⟩, rfl⟩
    · have hkj : (k == j) = false := by simpa using Ne.symm hj
      simp [hj, ih, hkj]

theorem sum_histogram (xs : List κ) : ((histogram xs).map (·.2)).sum = xs.length := by
  induction xs using List.reverseRecOn with
  | nil => rfl
  | append_singleton xs k ih =>
    rw [histogram_concat, sum_bump, ih, List.length_append, List.length_singleton]

/-- Every `n`-th item, the first one included. -/
def everyNth {α : Type*} (n : ℕ) (xs : List α) : List α :=
  (xs.zipIdx.filter fun p => (p.2 + 1) % n = 1).map (·.1)

theorem everyNth_concat {α : Type*} (n : ℕ) (xs : List α) (x : α) :
    everyNth n (xs ++ [x]) =
      if (xs.length + 1) % n = 1 then everyNth n xs ++ [x] else everyNth n xs := by
  unfold everyNth
  rw [List.zipIdx_append, List.filter_append, List.map_append]
  by_cases h : (xs.length + 1) % n = 1
  · simp [h]
  · simp [h]

theorem length_everyNth {α : Type*} {n : ℕ} (hn : 2 ≤ n) (xs : List α) :
    (everyNth n xs).length = (xs.length + (n - 1)) / n := by
  have hone : 1 % n = 1 := Nat.mod_eq_of_lt hn
  induction xs using List.reverseRecOn with
  | nil => simp [everyNth, Nat.div_eq_of_lt (by omega : n - 1 < n)]
  | append_singleton xs x ih =>
    have hdvd : (xs.length + 1) % n = 1 ↔ n ∣ xs.length := by
      rw [Nat.dvd_iff_mod_eq_zero, Nat.add_mod, hone]
      have hlt := Nat.mod_lt xs.length (by omega : 0 < n)
      rcases Nat.lt_or_ge (xs.length % n + 1) n with h | h
      · rw [Nat.mod_eq_of_lt h]
        omega
      · rw [show xs.length % n + 1 = n by omega, Nat.mod_self]
        omega
    have hcount : xs.length + 1 + (n - 1) = xs.length + (n - 1) + 1 := by omega
    have hmod : n ∣ xs.length + (n - 1) + 1 ↔ n ∣ xs.length := by
      rw [show xs.length + (n - 1) + 1 = xs.length + n by omega]
      exact Nat.dvd_add_left (Nat.dvd_refl n)
    rw [everyNth_concat, List.length_append, List.length_singleton, hcount, Nat.succ_div]
    by_cases h : n ∣ xs.length
    · rw [if_pos (hdvd.mpr h), if_pos (hmod.mpr h), List.length_append, List.length_singleton, ih]
    · rw [if_neg (mt hdvd.mp h), if_neg (mt hmod.mp h), ih, Nat.add_zero]

end Histogram
