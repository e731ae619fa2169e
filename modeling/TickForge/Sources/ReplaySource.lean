import Mathlib.Data.List.ReduceOption
import TickForge.MarketEvent.Wire

/-! The source that reads a capture file back. -/
namespace TickForge

open ByteString Nlohmann

/-- An opened replay file and its counter. -/
structure ReplaySource where
  /-- What `in_` has not read yet. -/
  input : Bytes
  linesMalformed : ℕ
  deriving DecidableEq

namespace ReplaySource

variable {c : Codec} {stops : ℕ → Bool} {now : Int64} {r r' : ReplaySource}

/-- `start()` on an existing file. -/
def start (file : Bytes) : ReplaySource := ⟨file, 0⟩

/-- One call of `next()`; `stops i` is what the loop's `i`-th test of `stop_requested_`
reads, and none is a return of false. -/
def next (c : Codec) (stops : ℕ → Bool) (now : Int64) (r : ReplaySource) :
    Except Exception (Option MarketEvent × ReplaySource) :=
  if stops 0 then .ok (none, r)
  else
    match _h : getline r.input with
    | none => .ok (none, r)
    | some (line, rest) =>
      if line.isEmpty then next c (fun i => stops (i + 1)) now { r with input := rest }
      else
        match decodeRecord c line with
        | .error e => .error e
        | .ok none =>
          next c (fun i => stops (i + 1)) now
            { input := rest, linesMalformed := r.linesMalformed + 1 }
        | .ok (some event) =>
          .ok (some { event with ingestTime := now }, { r with input := rest })
termination_by r.input.length
decreasing_by all_goals exact getline_length _h

/-- Nobody calls `stop()`. -/
def never : ℕ → Bool := fun _ => false

theorem next_consumes {e : MarketEvent} (h : r.next c stops now = .ok (some e, r')) :
    r'.input.length < r.input.length := by
  fun_induction next c stops now r with
  | case1 | case2 | case4 => simp at h
  | case3 stops r hs line rest hg _ ih =>
    have := ih h
    have := getline_length hg
    simp_all
    omega
  | case5 stops r hs line rest hg _ hd ih =>
    have := ih h
    have := getline_length hg
    simp_all
    omega
  | case6 stops r hs line rest hg _ event hd =>
    simp only [Except.ok.injEq, Prod.mk.injEq] at h
    have := getline_length hg
    simp_all [← h.2]

/-- `next()` until it returns false, with the clock readings of the calls. -/
def drain (c : Codec) (clock : ℕ → Int64) (r : ReplaySource) :
    Except Exception (List MarketEvent × ReplaySource) :=
  match _h : r.next c never (clock 0) with
  | .error e => .error e
  | .ok (none, r') => .ok ([], r')
  | .ok (some event, r') =>
    match drain c (fun i => clock (i + 1)) r' with
    | .error e => .error e
    | .ok (events, r'') => .ok (event :: events, r'')
termination_by r.input.length
decreasing_by exact next_consumes _h

/-- The lines that are looked at. -/
def records (file : Bytes) : List Bytes := (lines file).filter (!·.isEmpty)

/-- Terminated lines are looked at one by one, whatever follows. -/
theorem records_flatMap_append {ls : List Bytes} (h : ∀ l ∈ ls, l ≠ [] ∧ newline ∉ l) (b : Bytes) :
    records (ls.flatMap (· ++ [newline]) ++ b) = ls ++ records b := by
  rw [records, lines_flatMap_append fun l hl => (h l hl).2, List.filter_append]
  congr 1
  rw [List.filter_eq_self]
  intro l hl
  simpa using (h l hl).1

variable {line rest : Bytes} {event : MarketEvent}

theorem next_nil (h : getline r.input = none) : r.next c never now = .ok (none, r) := by
  rw [next, if_neg (by simp [never])]
  split <;> simp_all

theorem drain_unfold (c : Codec) (clock : ℕ → Int64) (r : ReplaySource) :
    r.drain c clock =
      match r.next c never (clock 0) with
      | .error e => .error e
      | .ok (none, r') => .ok ([], r')
      | .ok (some event, r') =>
        (r'.drain c fun i => clock (i + 1)).map fun p => (event :: p.1, p.2) := by
  rw [drain]
  split
  · simp_all
  · simp_all
  · next h =>
    rw [h]
    dsimp only
    split <;> simp_all [Except.map]

/-- A line that `next()` passes over leaves the call where the next line finds it. -/
theorem drain_of_next {clock : ℕ → Int64} (h : ∀ now, r.next c never now = r'.next c never now) :
    r.drain c clock = r'.drain c clock := by
  rw [drain_unfold, drain_unfold, h]

theorem next_line (h : getline r.input = some (line, rest)) (now : Int64) :
    r.next c never now =
      if line.isEmpty then next c never now { r with input := rest }
      else
        match decodeRecord c line with
        | .error e => .error e
        | .ok none => next c never now ⟨rest, r.linesMalformed + 1⟩
        | .ok (some event) =>
          .ok (some { event with ingestTime := now }, { r with input := rest }) := by
  rw [next, if_neg (by simp [never])]
  split
  · simp_all
  · simp_all
    rfl

/-- Until the end of the file every non-empty line is decoded once, in file order. -/
theorem drain_eq (c : Codec) (clock : ℕ → Int64) (r : ReplaySource) :
    (r.drain c clock).map (fun p => (p.1.map MarketEvent.timeless, p.2)) =
      (decodeAll c (records r.input)).map
        fun os => (os.reduceOption, ⟨[], r.linesMalformed + os.countP (·.isNone)⟩) := by
  generalize hl : lines r.input = ls
  induction ls generalizing r clock with
  | nil =>
    have hin := lines_eq_nil.mp hl
    rw [drain_unfold, next_nil (getline_eq_none.mpr hin), records, hl]
    obtain ⟨input, n⟩ := r
    obtain rfl : input = [] := hin
    rfl
  | cons line ls ih =>
    obtain ⟨rest, hg, hrest⟩ := getline_of_lines hl
    have hnext := next_line (c := c) hg
    by_cases hline : line.isEmpty
    · simp only [hline, if_true] at hnext
      rw [drain_of_next hnext, ih _ _ hrest]
      simp [records, hl, hrest, hline]
    · simp only [hline, Bool.false_eq_true, if_false] at hnext
      have hrec : records r.input = line :: records rest := by
        simp [records, hl, hrest, hline]
      rw [hrec, decodeAll_cons]
      cases hd : decodeRecord c line with
      | error e =>
        rw [drain_unfold, hnext]
        simp [hd, Except.map]
      | ok o =>
        simp only [hd] at hnext
        cases o with
        | none =>
          rw [drain_of_next hnext, ih _ _ hrest]
          cases decodeAll c (records rest) with
          | error e => rfl
          | ok os => simp [Except.map, Nat.add_assoc, Nat.add_comm 1]
        | some event =>
          have ht := decodeRecord_timeless hd
          have htail := ih (fun i => clock (i + 1)) { r with input := rest } hrest
          rw [drain_unfold, hnext]
          dsimp only
          generalize drain c (fun i => clock (i + 1)) { r with input := rest } = tail at htail ⊢
          generalize decodeAll c (records rest) = os at htail ⊢
          cases tail <;> cases os <;> simp_all [Except.map, MarketEvent.timeless]

theorem drain_ok {os : List (Option MarketEvent)} (clock : ℕ → Int64)
    (h : decodeAll c (records r.input) = .ok os) :
    ∃ delivered, r.drain c clock =
        .ok (delivered, ⟨[], r.linesMalformed + os.countP (·.isNone)⟩) ∧
      delivered.map MarketEvent.timeless = os.reduceOption := by
  have hd := drain_eq c clock r
  rw [h] at hd
  cases hr : r.drain c clock with
  | error x => simp [hr, Except.map] at hd
  | ok p =>
    obtain ⟨delivered, final⟩ := p
    simp only [hr, Except.map, Except.ok.injEq, Prod.mk.injEq] at hd
    exact ⟨delivered, by rw [hd.2], hd.1⟩

theorem drain_error {x : Exception} (clock : ℕ → Int64)
    (h : decodeAll c (records r.input) = .error x) :
    r.drain c clock = .error x := by
  have hd := drain_eq c clock r
  rw [h] at hd
  cases hr : r.drain c clock <;> simp_all [Except.map]

end ReplaySource

end TickForge
