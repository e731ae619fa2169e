import Mathlib.Algebra.BigOperators.Group.Finset.Basic
import Mathlib.Data.Fintype.Basic

/-! Counting the members of a finite population that are in a given kind of state. -/
namespace Population

variable {ι κ : Type*} [Fintype ι] [DecidableEq ι] (p : κ → Bool) (f : ι → κ)

def count (p : κ → Bool) (f : ι → κ) : ℕ := ∑ i, (p (f i)).toNat

/-- Moving one member changes the count by that member alone. -/
theorem count_update (i : ι) (x : κ) :
    count p (Function.update f i x) + (p (f i)).toNat = count p f + (p x).toNat := by
  have hrest : ∑ j ∈ Finset.univ.erase i, (p (Function.update f i x j)).toNat =
      ∑ j ∈ Finset.univ.erase i, (p (f j)).toNat := by
    apply Finset.sum_congr rfl
    intro j hj
    rw [Function.update_of_ne (Finset.ne_of_mem_erase hj)]
  have hnew := Finset.add_sum_erase Finset.univ
    (fun j => (p (Function.update f i x j)).toNat) (Finset.mem_univ i)
  have hold := Finset.add_sum_erase Finset.univ (fun j => (p (f j)).toNat) (Finset.mem_univ i)
  simp only [Function.update_self] at hnew
  simp only [count]
  omega

omit [DecidableEq ι] in
theorem exists_of_count_pos {p : κ → Bool} {f : ι → κ} (h : 0 < count p f) :
    ∃ i, p (f i) = true := by
  obtain ⟨i, -, hi⟩ := Finset.exists_ne_zero_of_sum_ne_zero (Nat.pos_iff_ne_zero.mp h)
  refine ⟨i, ?_⟩
  cases hp : p (f i) <;> simp_all

end Population
