import Mathlib.Data.List.Basic

/-! Calls that acquire, use and release handles and may throw. A handle that is used or
released when it is not live is a fault, and so is one that is acquired twice. -/
namespace Ownership

variable {κ ε : Type*} {α β : Type}

/-- From the live handles to a result and the live handles behind it; none is a fault. -/
def Call (κ ε : Type*) (α : Type) := List κ → Option (Except ε α × List κ)

instance : Monad (Call κ ε) where
  pure a := fun live => some (.ok a, live)
  bind x f := fun live =>
    match x live with
    | none => none
    | some (.error e, live') => some (.error e, live')
    | some (.ok a, live') => f a live'

def raise (e : ε) : Call κ ε α := fun live => some (.error e, live)

section Handles

variable [DecidableEq κ]

def acquire (k : κ) : Call κ ε Unit := fun live =>
  if k ∈ live then none else some (.ok (), k :: live)

def use (k : κ) : Call κ ε Unit := fun live => if k ∈ live then some (.ok (), live) else none

def release (k : κ) : Call κ ε Unit := fun live =>
  if k ∈ live then some (.ok (), live.erase k) else none

end Handles

/-- A call whose exception the caller catches. -/
def attempt (x : Call κ ε α) : Call κ ε Unit := fun live =>
  (x live).map fun p => (.ok (), p.2)

/-- An object's life: a constructor that throws leaves no object behind, and otherwise any
calls follow, whether they throw or not, and the destructor. -/
def lifetime (construct : Call κ ε Unit) (calls : List (Call κ ε Unit))
    (destroy : Call κ ε Unit) : Call κ ε Unit := do
  construct
  calls.forM attempt
  destroy

/-- The call meets no fault, and ends as `Q` says. -/
def Ends (x : Call κ ε α) (live : List κ) (Q : Except ε α → List κ → Prop) : Prop :=
  ∃ r live', x live = some (r, live') ∧ Q r live'

variable {c : Call κ ε α} {f : α → Call κ ε β} {live : List κ}
  {P : Except ε α → List κ → Prop} {Q : Except ε β → List κ → Prop}

theorem Ends.pure {a : α} (h : P (.ok a) live) : Ends (pure a : Call κ ε α) live P :=
  ⟨_, _, rfl, h⟩

theorem Ends.raise {e : ε} (h : P (.error e) live) : Ends (raise e : Call κ ε α) live P :=
  ⟨_, _, rfl, h⟩

theorem Ends.bind (h : Ends c live P) (hok : ∀ a live', P (.ok a) live' → Ends (f a) live' Q)
    (herr : ∀ e live', P (.error e) live' → Q (.error e) live') : Ends (c >>= f) live Q := by
  obtain ⟨r, live', hc, hr⟩ := h
  cases r with
  | error e => exact ⟨.error e, live', by simp [Bind.bind, hc], herr e live' hr⟩
  | ok a =>
    obtain ⟨r', live'', hf, hq⟩ := hok a live' hr
    exact ⟨r', live'', by simp [Bind.bind, hc, hf], hq⟩

section Handles

variable [DecidableEq κ] {k : κ} {y : Call κ ε β}

theorem Ends.acquire (hk : k ∉ live) (h : Ends y (k :: live) Q) :
    Ends (do Ownership.acquire k; y) live Q := by
  obtain ⟨r, live', hy, hq⟩ := h
  exact ⟨r, live', by simp [Bind.bind, Ownership.acquire, hk, hy], hq⟩

theorem Ends.use (hk : k ∈ live) (h : Ends y live Q) : Ends (do Ownership.use k; y) live Q := by
  obtain ⟨r, live', hy, hq⟩ := h
  exact ⟨r, live', by simp [Bind.bind, Ownership.use, hk, hy], hq⟩

theorem Ends.release (hk : k ∈ live) (h : Ends y (live.erase k) Q) :
    Ends (do Ownership.release k; y) live Q := by
  obtain ⟨r, live', hy, hq⟩ := h
  exact ⟨r, live', by simp [Bind.bind, Ownership.release, hk, hy], hq⟩

end Handles

theorem Ends.attempt {R : List κ → Prop} (h : Ends c live fun _ live' => R live') :
    Ends (attempt c) live fun r live' => r = .ok () ∧ R live' := by
  obtain ⟨r, live', hc, hr⟩ := h
  exact ⟨_, live', by simp [Ownership.attempt, hc], rfl, hr⟩

/-- Calls that each leave the handles as they are do so one after the other. -/
theorem Ends.forM {calls : List (Call κ ε Unit)}
    (h : ∀ call ∈ calls, Ends call live fun _ live' => live' = live) :
    Ends (calls.forM Ownership.attempt) live fun r live' => r = .ok () ∧ live' = live := by
  induction calls with
  | nil => exact ⟨_, _, rfl, rfl, rfl⟩
  | cons call calls ih =>
    refine Ends.bind (h call (by simp)).attempt ?_ ?_
    · rintro - live' ⟨-, rfl⟩
      exact ih fun call hc => h call (List.mem_cons_of_mem _ hc)
    · rintro e live' ⟨he, -⟩
      cases he

/-- An object that is there with the handles `own` and keeps them in every call leaves none
of them behind, whichever of its calls throw. -/
theorem Ends.lifetime {construct destroy : Call κ ε Unit} {calls : List (Call κ ε Unit)}
    {own : List κ}
    (hconstruct : Ends construct [] fun r live' => live' = if r.isOk then own else [])
    (hcalls : ∀ call ∈ calls, Ends call own fun _ live' => live' = own)
    (hdestroy : Ends destroy own fun _ live' => live' = []) :
    Ends (lifetime construct calls destroy) [] fun _ live' => live' = [] := by
  refine Ends.bind hconstruct ?_ ?_
  · intro a live' hlive
    obtain rfl : live' = own := by simpa [Except.isOk, Except.toBool] using hlive
    refine Ends.bind (Ends.forM hcalls) ?_ ?_
    · rintro - live' ⟨-, rfl⟩
      exact hdestroy
    · rintro e live' ⟨he, -⟩
      cases he
  · intro e live' hlive
    simpa [Except.isOk, Except.toBool] using hlive

end Ownership
