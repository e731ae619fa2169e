import Mathlib.Data.List.Basic
import Mathlib.Data.List.Induction
import Mathlib.Data.List.TakeWhile

/-! Byte strings, their UTF-8 validity, and newline framing as `std::getline` reads it. -/
namespace ByteString

abbrev Bytes := List UInt8

/-- The bytes of a literal. -/
def utf8 (s : String) : Bytes := s.toByteArray.data.toList

def ValidUtf8 (b : Bytes) : Prop := (ByteArray.mk b.toArray).IsValidUTF8

instance (b : Bytes) : Decidable (ValidUtf8 b) :=
  inferInstanceAs (Decidable (ByteArray.IsValidUTF8 _))

theorem validUtf8_utf8 (s : String) : ValidUtf8 (utf8 s) := by
  simpa [ValidUtf8, utf8] using s.isValidUTF8

theorem validUtf8_ascii {b : Bytes} (h : ∀ c ∈ b, c < 128) : ValidUtf8 b := by
  induction b using List.reverseRecOn with
  | nil => exact ByteArray.isValidUTF8_empty
  | append_singleton b c ih =>
    have hb := ih fun c hc => h c (List.mem_append_left _ hc)
    have hc : c.toNat < 128 := h c (by simp)
    let x : Char := ⟨c.toUInt32, Or.inl (by
      rw [UInt8.toNat_toUInt32]
      omega)⟩
    have hx : x.utf8Size = 1 := by
      have hle : x.val ≤ 127 := by
        rw [UInt32.le_iff_toNat_le, UInt8.toNat_toUInt32]
        exact Nat.le_of_lt_succ hc
      exact if_pos hle
    have hpush := ByteArray.IsValidUTF8.push hb hx
    have hbyte : x.toUInt8 = c := UInt8.toUInt8_toUInt32 c
    have hbytes : (ByteArray.mk b.toArray).push c = ByteArray.mk (b ++ [c]).toArray :=
      ByteArray.ext (by simp)
    rwa [hbyte, hbytes] at hpush

def newline : UInt8 := 10

variable {b l rest : Bytes} {ls : List Bytes}

/-- One line and the unread rest; fails only at the end of the stream. The last line
need not be terminated. -/
def getline : Bytes → Option (Bytes × Bytes)
  | [] => none
  | b => some (b.takeWhile (· != newline), (b.dropWhile (· != newline)).drop 1)

/-- The lines that successive `getline` calls return. -/
def lines : Bytes → List Bytes
  | [] => []
  | c :: b =>
    if c = newline then [] :: lines b
    else
      match lines b with
      | [] => [[c]]
      | l :: ls => (c :: l) :: ls

theorem getline_eq_none : getline b = none ↔ b = [] := by
  cases b <;> simp [getline]

theorem getline_length (h : getline b = some (l, rest)) : rest.length < b.length := by
  cases b with
  | nil => simp [getline] at h
  | cons c b =>
    simp only [getline, Option.some.injEq, Prod.mk.injEq] at h
    have hlen := (List.dropWhile_suffix (· != newline) (l := c :: b)).length_le
    have hrest := congrArg List.length h.2
    simp only [List.length_drop, List.length_cons] at hrest hlen ⊢
    omega

/-- `getline` takes the first of the lines and leaves the others. -/
theorem lines_of_getline (h : getline b = some (l, rest)) : lines b = l :: lines rest := by
  induction b generalizing l with
  | nil => simp [getline] at h
  | cons c b ih =>
    simp only [getline, Option.some.injEq, Prod.mk.injEq] at h
    obtain ⟨rfl, rfl⟩ := h
    by_cases hc : c = newline
    · simp [lines, hc]
    · cases b with
      | nil => simp [lines, hc]
      | cons d b =>
        have := ih (l := (d :: b).takeWhile (· != newline)) (by simp [getline, hc])
        rw [lines, if_neg hc, this]
        simp [hc]

theorem getline_of_lines (h : lines b = l :: ls) :
    ∃ rest, getline b = some (l, rest) ∧ lines rest = ls := by
  cases hg : getline b with
  | none =>
    rw [getline_eq_none.mp hg] at h
    simp [lines] at h
  | some p =>
    obtain ⟨l', rest⟩ := p
    have := (lines_of_getline hg).symm.trans h
    obtain ⟨rfl, rfl⟩ := List.cons.inj this
    exact ⟨rest, rfl, rfl⟩

theorem lines_eq_nil : lines b = [] ↔ b = [] := by
  cases b with
  | nil => simp [lines]
  | cons c b =>
    rw [lines]
    split
    · simp
    · split <;> simp

/-- A terminated line is read back whole, whatever follows. -/
theorem lines_terminated (h : newline ∉ l) : lines (l ++ newline :: rest) = l :: lines rest := by
  induction l with
  | nil => simp [lines]
  | cons c l ih =>
    have hc : c ≠ newline := fun hc => h (by simp [hc])
    rw [List.cons_append, lines, if_neg hc, ih (fun hl => h (List.mem_cons_of_mem _ hl))]

/-- Terminated lines are split back into exactly those lines, whatever follows. -/
theorem lines_flatMap_append (h : ∀ l ∈ ls, newline ∉ l) (b : Bytes) :
    lines (ls.flatMap (· ++ [newline]) ++ b) = ls ++ lines b := by
  induction ls with
  | nil => rfl
  | cons l ls ih =>
    rw [List.flatMap_cons, List.append_assoc, List.append_assoc, List.singleton_append,
      lines_terminated (h l (by simp)), ih (fun l hl => h l (List.mem_cons_of_mem _ hl))]
    rfl

/-- What has no newline is one line without an end. -/
theorem lines_unterminated (hb : b ≠ []) (h : newline ∉ b) : lines b = [b] := by
  induction b with
  | nil => exact (hb rfl).elim
  | cons c b ih =>
    have hc : c ≠ newline := fun hc => h (by simp [hc])
    rw [lines, if_neg hc]
    cases b with
    | nil => rfl
    | cons d b => rw [ih (by simp) fun hd => h (List.mem_cons_of_mem _ hd)]

/-- A run of characters of one kind is cut off where the kind ends. -/
theorem takeWhile_delimited {p : UInt8 → Bool} {s r : Bytes} (hs : ∀ c ∈ s, p c = true)
    (hr : ∀ c ∈ r.head?, p c = false) :
    (s ++ r).takeWhile p = s ∧ (s ++ r).dropWhile p = r := by
  rw [List.takeWhile_append_of_pos hs, List.dropWhile_append_of_pos hs]
  cases r with
  | nil => simp
  | cons c r => simp [hr c (by simp)]

theorem dropWhile_head {p : UInt8 → Bool} (s : Bytes) : ∀ c ∈ (s.dropWhile p).head?, p c = false := by
  intro c hc
  induction s with
  | nil => simp at hc
  | cons d s ih =>
    by_cases hd : p d = true
    · exact ih (by simpa [hd] using hc)
    · obtain rfl : d = c := by simpa [hd] using hc
      simpa using hd

end ByteString
