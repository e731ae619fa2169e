import Mathlib.Data.List.Basic

/-! Options of the form `--flag value` on a command line, and what a scan makes of them. -/
namespace CommandLine

variable {α ε σ β : Type*} {assign : α → Option (α → σ → Except ε σ)} {o o' : σ}
  {arg value : α} {args rest : List α}

/-- A flag that is the last argument sets nothing, and neither does any other argument. -/
def scan (assign : α → Option (α → σ → Except ε σ)) : σ → List α → Except ε σ
  | o, arg :: value :: rest =>
    match assign arg with
    | some set =>
      match set value o with
      | .error e => .error e
      | .ok o' => scan assign o' rest
    | none => scan assign o (value :: rest)
  | o, _ => .ok o

/-- An argument that is no flag might as well not be there. -/
theorem scan_skip (h : assign arg = none) : scan assign o (arg :: rest) = scan assign o rest := by
  cases rest with
  | nil => simp [scan]
  | cons value rest => rw [scan, h]

/-- What every flag keeps for the values of the arguments, the scan keeps too. -/
theorem scan_invariant {P : σ → Prop} {Q : α → Prop}
    (hset : ∀ {arg set value o o'}, assign arg = some set → set value o = .ok o' → Q value →
      P o → P o')
    (ho : P o) (hargs : ∀ a ∈ args, Q a) (h : scan assign o args = .ok o') : P o' := by
  fun_induction scan assign o args with
  | case1 => cases h
  | case2 o arg value rest set ha o₁ hs ih =>
    simp only [List.forall_mem_cons] at hargs
    exact ih (hset ha hs hargs.2.1 ho) hargs.2.2 h
  | case3 o arg value rest ha ih => exact ih ho (List.forall_mem_cons.mp hargs).2 h
  | case4 =>
    cases h
    exact ho

/-- The flags that find a value, each with that value. -/
def settings (isFlag : α → Bool) : List α → List (α × α)
  | arg :: value :: rest =>
    if isFlag arg then (arg, value) :: settings isFlag rest else settings isFlag (value :: rest)
  | _ => []

/-- What a single flag and its value do. -/
def assignOne (assign : α → Option (α → σ → Except ε σ)) (o : σ) (p : α × α) : Except ε σ :=
  match assign p.1 with
  | some set => set p.2 o
  | none => .ok o

/-- The scan assigns the settings one after the other. -/
theorem scan_eq_foldlM (assign : α → Option (α → σ → Except ε σ)) (o : σ) (args : List α) :
    scan assign o args =
      (settings (fun arg => (assign arg).isSome) args).foldlM (assignOne assign) o := by
  fun_induction scan assign o args with
  | case1 o arg value rest set ha e hs =>
    rw [settings, if_pos (by simp [ha]), List.foldlM_cons]
    simp [assignOne, ha, hs, bind, Except.bind]
  | case2 o arg value rest set ha o' hs ih =>
    rw [settings, if_pos (by simp [ha]), List.foldlM_cons, ih]
    simp [assignOne, ha, hs, bind, Except.bind]
  | case3 o arg value rest ha ih =>
    rw [settings, if_neg (by simp [ha]), ih]
  | case4 o args hargs =>
    rw [settings]
    · rfl
    · exact hargs

/-- A field that only its own flag writes ends up with the last value of that flag. -/
theorem foldlM_field {step : σ → α × α → Except ε σ} (f : σ → β) (mine : α × α → Bool)
    (read : α → β) (hmine : ∀ {o p o'}, mine p = true → step o p = .ok o' → f o' = read p.2)
    (hother : ∀ {o p o'}, mine p = false → step o p = .ok o' → f o' = f o)
    {ps : List (α × α)} (h : ps.foldlM step o = .ok o') :
    f o' = ((ps.filter mine).getLast?.map fun p => read p.2).getD (f o) := by
  induction ps generalizing o with
  | nil =>
    cases h
    rfl
  | cons p ps ih =>
    rw [List.foldlM_cons] at h
    cases hp : step o p with
    | error e =>
      rw [hp] at h
      cases h
    | ok o₁ =>
      rw [hp] at h
      have hrest := ih h
      cases hm : mine p with
      | true =>
        rw [hrest, List.filter_cons_of_pos hm, List.getLast?_cons, hmine hm hp]
        cases (ps.filter mine).getLast? <;> rfl
      | false =>
        rw [hrest, List.filter_cons_of_neg (by simp [hm]), hother hm hp]

/-- A scan fails only at a setting that fails whatever came before it. -/
theorem foldlM_ok_iff {step : σ → α × α → Except ε σ} {good : α × α → Prop}
    (hgood : ∀ o p, (∃ o', step o p = .ok o') ↔ good p) (o : σ) (ps : List (α × α)) :
    (∃ o', ps.foldlM step o = .ok o') ↔ ∀ p ∈ ps, good p := by
  induction ps generalizing o with
  | nil => simpa using ⟨o, rfl⟩
  | cons p ps ih =>
    rw [List.foldlM_cons, List.forall_mem_cons]
    cases hp : step o p with
    | error e =>
      have hbad : ¬ good p := by
        rw [← hgood o p, hp]
        rintro ⟨o', ho⟩
        cases ho
      constructor
      · rintro ⟨o', ho⟩
        cases ho
      · rintro ⟨hg, -⟩
        exact (hbad hg).elim
    | ok o₁ =>
      have hg : good p := (hgood o p).mp ⟨o₁, hp⟩
      exact (ih o₁).trans ⟨fun h => ⟨hg, h⟩, And.right⟩

end CommandLine
