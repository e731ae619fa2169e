import TickForge.Lib.JsonText

/-! Texts of objects that are cut off, one behind the other. -/
namespace Nlohmann

open ByteString Binary64 Json

variable {b f g r rest s x y : Bytes} {fuel : ℕ} {j v : Json} {k : Bytes}
  {ms : List (Bytes × Json)}

/-- Nothing that continues an object behind a key or a value. -/
def Breaks (b : Bytes) : Prop := ∀ c ∈ b.head?, c ≠ 44 ∧ c ≠ 58 ∧ c ≠ 125

/-- What a text that is cut off may run into without becoming whole again. -/
structure Torn (r : Bytes) : Prop where
  head : ∀ c ∈ r.head?, c = 123
  string : ∀ {fuel : ℕ} {s rest : Bytes}, parseString fuel r = some (s, rest) → Breaks rest
  value : ∀ {fuel : ℕ} {j : Json} {rest : Bytes}, r.length < fuel →
    parseValue fuel r = some (j, rest) → j.finite = true ∧ Breaks rest

theorem torn_nil : Torn [] where
  head := by simp
  string {fuel s rest} h := by cases fuel <;> simp [parseString] at h
  value {fuel j rest} _ h := by cases fuel <;> simp [parseValue] at h

theorem Torn.breaks (h : Torn r) : Breaks r := by
  intro c hc
  rw [h.head c hc]
  decide

theorem Torn.delimited (h : Torn r) : Delimited r := by
  intro c hc
  rw [h.head c hc]
  rfl

theorem prefix_append_cases (h : x <+: f ++ g) : x <+: f ∨ ∃ y, x = f ++ y ∧ y <+: g := by
  rcases List.prefix_or_prefix_of_prefix h (List.prefix_append f g) with hx | ⟨y, rfl⟩
  · exact Or.inl hx
  · exact Or.inr ⟨y, rfl, (List.prefix_append_right_inj f).mp h⟩

/-- The beginning of an escape is not completed by a brace. -/
theorem unescape_cut (hr : ∀ c ∈ r.head?, c = 123)
    (hy : y ∈ [[], [117], [117, 48], [117, 48, 48]] ∨ ∃ c, y = [117, 48, 48, c]) :
    unescape (y ++ r) = none := by
  cases r with
  | nil =>
    rcases hy with hy | ⟨c, rfl⟩
    · simp only [List.mem_cons, List.not_mem_nil, or_false] at hy
      rcases hy with rfl | rfl | rfl | rfl <;> rfl
    · rfl
  | cons d r =>
    obtain rfl : d = 123 := hr d (by simp)
    rcases hy with hy | ⟨c, rfl⟩
    · simp only [List.mem_cons, List.not_mem_nil, or_false] at hy
      rcases hy with rfl | rfl | rfl | rfl
      · rfl
      · rfl
      · rfl
      · cases r <;> rfl
    · simp only [List.cons_append, List.nil_append, unescape]
      have hbrace : hexValue 123 = none := rfl
      cases hexValue c <;> simp [hbrace]

theorem escape_cases (c : UInt8) :
    (∃ k, escape c = [92, k]) ∨ (∃ a b, escape c = [92, 117, 48, 48, a, b]) ∨ escape c = [c] := by
  rw [escape]
  split
  · exact Or.inl ⟨_, rfl⟩
  · split
    · exact Or.inr (Or.inl ⟨_, _, rfl⟩)
    · exact Or.inr (Or.inr rfl)

/-- The strict beginnings of an escape. -/
theorem escape_cut {c : UInt8} (hx : x <+: escape c) (hne : x ≠ escape c) :
    x = [] ∨ ∃ y, x = 92 :: y ∧
      (y ∈ [[], [117], [117, 48], [117, 48, 48]] ∨ ∃ c, y = [117, 48, 48, c]) := by
  rcases escape_cases c with ⟨k, he⟩ | ⟨a, b, he⟩ | he <;> rw [he] at hx hne <;>
    simp only [List.prefix_cons_iff, List.prefix_nil] at hx
  · rcases hx with rfl | ⟨y, rfl, rfl | ⟨y, rfl, rfl⟩⟩
    · exact Or.inl rfl
    · exact Or.inr ⟨[], rfl, Or.inl (by simp)⟩
    · exact (hne rfl).elim
  · rcases hx with rfl | ⟨y, rfl, hy⟩
    · exact Or.inl rfl
    · refine Or.inr ⟨y, rfl, ?_⟩
      rcases hy with rfl | ⟨y, rfl, rfl | ⟨y, rfl, rfl | ⟨y, rfl, rfl | ⟨y, rfl, rfl | ⟨y, rfl, rfl⟩⟩⟩⟩⟩
      · simp
      · simp
      · simp
      · simp
      · exact Or.inr ⟨a, rfl⟩
      · exact (hne rfl).elim
  · rcases hx with rfl | ⟨y, rfl, rfl⟩
    · exact Or.inl rfl
    · exact (hne rfl).elim

theorem parseString_escape_cut {c : UInt8} (fuel : ℕ) (hr : ∀ c ∈ r.head?, c = 123)
    (hx : x <+: escape c) (hne : x ≠ escape c) : x = [] ∨ parseString fuel (x ++ r) = none := by
  rcases escape_cut hx hne with rfl | ⟨y, rfl, hy⟩
  · exact Or.inl rfl
  · refine Or.inr ?_
    cases fuel with
    | zero => rfl
    | succ fuel => simp [parseString, unescape_cut hr hy]

/-- A string that is cut off ends where nothing of its object can follow. -/
theorem parseString_cut {t : Bytes} (hr : Torn r) (hx : x <+: s.flatMap escape)
    (hp : parseString fuel (x ++ r) = some (t, rest)) : Breaks rest := by
  induction s generalizing x fuel t with
  | nil =>
    obtain rfl : x = [] := by simpa using hx
    exact hr.string hp
  | cons c s ih =>
    rw [List.flatMap_cons] at hx
    by_cases hc : ∃ y, x = escape c ++ y ∧ y <+: s.flatMap escape
    · obtain ⟨y, rfl, hy⟩ := hc
      cases fuel with
      | zero => simp [parseString] at hp
      | succ fuel =>
        rw [List.append_assoc, parseString_escape] at hp
        obtain ⟨⟨t', rest'⟩, hp', heq⟩ := Option.map_eq_some_iff.mp hp
        obtain ⟨-, rfl⟩ := Prod.mk.inj heq
        exact ih hy hp'
    · have hpre : x <+: escape c := (prefix_append_cases hx).resolve_right hc
      have hne : x ≠ escape c := by
        rintro rfl
        exact hc ⟨[], by simp, List.nil_prefix⟩
      rcases parseString_escape_cut fuel hr.head hpre hne with rfl | hnone
      · exact hr.string hp
      · simp [hnone] at hp

theorem Torn.not_key (hr : Torn r) (fuel : ℕ) : parseMember fuel r = none := by
  cases fuel with
  | zero => rfl
  | succ fuel =>
    cases hc : r with
    | nil => rfl
    | cons c r' =>
      obtain rfl : c = 123 := hr.head c (by simp [hc])
      simp [parseMember]

theorem quoted_cut (hg : g <+: quoted k) :
    g = [] ∨ (∃ x, g = 34 :: x ∧ x <+: k.flatMap escape) ∨ g = quoted k := by
  rw [quoted, List.prefix_cons_iff] at hg
  rcases hg with rfl | ⟨x, rfl, hx⟩
  · exact Or.inl rfl
  · rcases prefix_append_cases hx with hx | ⟨y, rfl, hy⟩
    · exact Or.inr (Or.inl ⟨x, rfl, hx⟩)
    · rcases List.prefix_cons_iff.mp hy with rfl | ⟨z, rfl, hz⟩
      · exact Or.inr (Or.inl ⟨_, rfl, by simp⟩)
      · obtain rfl : z = [] := by simpa using hz
        exact Or.inr (Or.inr rfl)

/-- A key that is cut off, or cut from its value, is none. -/
theorem parseMember_key_cut (hr : Torn r) (hg : g <+: quoted k) (fuel : ℕ) :
    parseMember fuel (g ++ r) = none := by
  cases fuel with
  | zero => rfl
  | succ fuel =>
    rcases quoted_cut hg with rfl | ⟨x, rfl, hx⟩ | rfl
    · exact hr.not_key _
    · simp only [List.cons_append, parseMember, if_true]
      cases hp : parseString (x ++ r).length (x ++ r) with
      | none => rfl
      | some p =>
        have hbreaks := parseString_cut hr hx hp
        have hhead : p.2.head? ≠ some 58 := fun h => (hbreaks 58 h).2.1 rfl
        simp [hhead]
    · have hs := parseString_behind_quote k r
      have hhead : r.head? ≠ some 58 := fun h => (hr.breaks 58 h).2.1 rfl
      simp only [quoted, List.cons_append, List.append_assoc, List.nil_append, parseMember, if_true,
        hs]
      simp [hhead]

theorem parseMembers_breaks (h : Breaks rest) (fuel : ℕ) : parseMembers fuel rest = none := by
  cases fuel with
  | zero => rfl
  | succ fuel =>
    cases rest with
    | nil => rfl
    | cons c rest =>
      obtain ⟨hcomma, -, hbrace⟩ := h c rfl
      simp [parseMembers, hcomma, hbrace]

/-- A number or a string. -/
def plain : Json → Bool
  | .integer _ | .string _ => true
  | .float d => d.isFinite
  | _ => false

theorem finite_of_plain (h : plain v = true) : everywhere floatFinite v = true := by
  cases v <;> simp_all [plain, everywhere, floatFinite]

theorem sorted_of_plain (h : plain v = true) : everywhere keysSorted v = true := by
  cases v <;> simp_all [plain, everywhere, keysSorted]

/-- A number ends where its characters end. -/
theorem parseValue_numeral_cut (hf : ∀ c ∈ f, isNumberChar c = true) (hne : f ≠ [])
    (hr : Delimited r) (hp : parseValue fuel (f ++ r) = some (j, rest)) : rest = r := by
  obtain ⟨htake, hdrop⟩ := takeWhile_delimited hf hr
  cases fuel with
  | zero => simp [parseValue] at hp
  | succ fuel =>
    cases f with
    | nil => exact (hne rfl).elim
    | cons c f =>
      have hne := ne_of_isNumberChar (hf c (by simp))
      simp only [List.cons_append] at htake hdrop hp
      simp only [parseValue, hne, if_false, htake, hdrop, Option.map_eq_some_iff,
        Prod.mk.injEq] at hp
      obtain ⟨_, -, -, hrest⟩ := hp
      exact hrest.symm

theorem parseValue_number_cut (hr : Torn r) (hs : ∀ c ∈ s, isNumberChar c = true) (hf : f <+: s)
    (hlen : (f ++ r).length < fuel) (hp : parseValue fuel (f ++ r) = some (j, rest)) :
    Breaks rest := by
  by_cases hne : f = []
  · subst hne
    exact (hr.value hlen hp).2
  · rw [parseValue_numeral_cut (fun c hc => hs c (hf.subset hc)) hne hr.delimited hp]
    exact hr.breaks

theorem parseValue_string_cut (hr : Torn r) (hf : f <+: quoted s)
    (hlen : (f ++ r).length < fuel) (hp : parseValue fuel (f ++ r) = some (j, rest)) :
    Breaks rest := by
  rcases quoted_cut hf with rfl | ⟨x, rfl, hx⟩ | rfl
  · exact (hr.value hlen hp).2
  · cases fuel with
    | zero => simp [parseValue] at hp
    | succ fuel =>
      have hq : parseValue (fuel + 1) (34 :: (x ++ r)) =
          (parseString (x ++ r).length (x ++ r)).map fun p => (.string p.1, p.2) := by
        simp [parseValue]
      rw [List.cons_append, hq] at hp
      obtain ⟨p, hp', heq⟩ := Option.map_eq_some_iff.mp hp
      obtain ⟨-, rfl⟩ := Prod.mk.inj heq
      exact parseString_cut hr hx hp'
  · have hfuel : (compactText (.string s)).length < fuel := by
      simp only [List.length_append] at hlen
      simp only [compactText]
      omega
    have hwhole := parseValue_text (.string s) fuel r rfl rfl hfuel hr.delimited
    simp only [compactText] at hwhole
    rw [hwhole] at hp
    obtain ⟨-, rfl⟩ := Prod.mk.inj (Option.some.inj hp)
    exact hr.breaks

/-- Behind a value that is cut off, nothing of its object can follow. -/
theorem parseValue_cut (hr : Torn r) (hv : plain v = true) (hf : f <+: compactText v)
    (hlen : (f ++ r).length < fuel) (hp : parseValue fuel (f ++ r) = some (j, rest)) :
    Breaks rest := by
  cases v with
  | integer z =>
    rw [compactText] at hf
    exact parseValue_number_cut hr (fun c hc => isNumberChar_integerText hc) hf hlen hp
  | float d =>
    have hd : d.isFinite = true := hv
    rw [compactText, if_pos hd] at hf
    exact parseValue_number_cut hr (fun c hc => isNumberChar_floatText hc) hf hlen hp
  | string s =>
    rw [compactText] at hf
    exact parseValue_string_cut hr hf hlen hp
  | _ => simp [plain] at hv

/-- A first member and the others, up to the end of the object. -/
def entryText (k : Bytes) (v : Json) (ms : List (Bytes × Json)) : Bytes :=
  quoted k ++ 58 :: (compactText v ++ membersText ms)

theorem entry_cut (hg : g <+: entryText k v ms) : g <+: quoted k ∨
    ∃ f, g = quoted k ++ 58 :: f ∧
      (f <+: compactText v ∨ ∃ y, f = compactText v ++ y ∧ y ≠ [] ∧ y <+: membersText ms) := by
  rcases prefix_append_cases hg with hg | ⟨x, rfl, hx⟩
  · exact Or.inl hg
  · rcases List.prefix_cons_iff.mp hx with rfl | ⟨f, rfl, hf⟩
    · exact Or.inl (by simp)
    · refine Or.inr ⟨f, rfl, ?_⟩
      rcases prefix_append_cases hf with hf | ⟨y, rfl, hy⟩
      · exact Or.inl hf
      · by_cases hne : y = []
        · exact Or.inl (by simp [hne])
        · exact Or.inr ⟨y, rfl, hne, hy⟩

theorem parseMember_quoted (k b : Bytes) (fuel : ℕ) :
    parseMember (fuel + 1) (quoted k ++ 58 :: b) =
      (parseValue fuel b).map fun p => ((k, p.1), p.2) := by
  have hk := parseString_behind_quote k (58 :: b)
  simp only [quoted, List.cons_append, List.append_assoc, List.nil_append, parseMember, if_true, hk]
  cases hv : parseValue fuel b <;> simp [hv]

theorem parseMember_value_cut {p : (Bytes × Json) × Bytes} (hr : Torn r) (hv : plain v = true)
    (hf : f <+: compactText v) (hlen : (quoted k ++ 58 :: f ++ r).length < fuel)
    (hp : parseMember fuel (quoted k ++ 58 :: f ++ r) = some p) : Breaks p.2 := by
  cases fuel with
  | zero => omega
  | succ fuel =>
    rw [List.append_assoc, List.cons_append, parseMember_quoted] at hp
    obtain ⟨q, hq, rfl⟩ := Option.map_eq_some_iff.mp hp
    refine parseValue_cut hr hv hf ?_ hq
    simp only [List.length_append, List.length_cons] at hlen ⊢
    omega

/-- Members that are cut off are not read to their end. -/
theorem parseMembers_cut {p : (Bytes × Json) × Bytes} (hr : Torn r) (hv : plain v = true)
    (hms : ∀ m ∈ ms, plain m.2 = true) (hg : g <+: entryText k v ms)
    (hne : g ≠ entryText k v ms) (hlen : (g ++ r).length < fuel)
    (hp : parseMember fuel (g ++ r) = some p) : parseMembers fuel p.2 = none := by
  induction ms generalizing k v g fuel p with
  | nil =>
    rcases entry_cut hg with hg | ⟨f, rfl, hf | ⟨y, rfl, hy, hpre⟩⟩
    · simp [parseMember_key_cut hr hg] at hp
    · exact parseMembers_breaks (parseMember_value_cut hr hv hf hlen hp) _
    · rcases List.prefix_cons_iff.mp hpre with rfl | ⟨z, rfl, hz⟩
      · exact (hy rfl).elim
      · obtain rfl : z = [] := by simpa using hz
        exact (hne rfl).elim
  | cons m ms ih =>
    rcases entry_cut hg with hg | ⟨f, rfl, hf | ⟨y, rfl, hy, hpre⟩⟩
    · simp [parseMember_key_cut hr hg] at hp
    · exact parseMembers_breaks (parseMember_value_cut hr hv hf hlen hp) _
    · -- the first member is whole, and the cut is in one of the others
      rcases List.prefix_cons_iff.mp hpre with rfl | ⟨g', rfl, hg'⟩
      · exact (hy rfl).elim
      have hne' : g' ≠ entryText m.1 m.2 ms := by
        rintro rfl
        exact hne rfl
      simp only [List.length_append, List.length_cons] at hlen
      have hmember := parseMember_entry k v fuel (44 :: (g' ++ r)) (finite_of_plain hv)
        (sorted_of_plain hv) (by omega) (by simp [Delimited]; decide)
      obtain rfl : p = ((k, v), 44 :: (g' ++ r)) := by
        simpa [hmember] using hp.symm
      cases fuel with
      | zero => rfl
      | succ fuel =>
        cases hp' : parseMember fuel (g' ++ r) with
        | none => simp [parseMembers, hp']
        | some p' =>
          have hnone := ih (hms m (by simp)) (fun m hm => hms m (List.mem_cons_of_mem _ hm)) hg' hne'
            (by simp only [List.length_append]; omega) hp'
          simp [parseMembers, hp', hnone]

/-- An object of numbers and strings. Its first key does not begin with what continues an
object behind a string. -/
structure Record (k : Bytes) (v : Json) (ms : List (Bytes × Json)) : Prop where
  first : plain v = true
  others : ∀ m ∈ ms, plain m.2 = true
  finite : (object ((k, v) :: ms)).finite = true
  sorted : (object ((k, v) :: ms)).sorted = true
  key : Breaks (k.flatMap escape ++ [34])

theorem Breaks.of_prefix (hb : Breaks b) (hx : x <+: b ++ y) (hr : Breaks r) (hne : b ≠ []) :
    Breaks (x ++ r) := by
  obtain ⟨z, hz⟩ := hx
  cases x with
  | nil => exact hr
  | cons c x =>
    cases b with
    | nil => exact (hne rfl).elim
    | cons d b =>
      obtain ⟨rfl, -⟩ := List.cons.inj hz
      exact hb

/-- The string that the first quote of a new object ends. -/
theorem parseString_into_record {t : Bytes} (hj : Record k v ms) (hr : Torn r)
    (hg : g <+: entryText k v ms) (hp : parseString fuel (g ++ r) = some (t, rest)) :
    Breaks rest := by
  cases g with
  | nil => exact hr.string hp
  | cons c x =>
    have htext : entryText k v ms =
        34 :: ((k.flatMap escape ++ [34]) ++ 58 :: (compactText v ++ membersText ms)) := by
      simp [entryText, quoted]
    rw [htext, List.cons_prefix_cons] at hg
    obtain ⟨rfl, hx⟩ := hg
    cases fuel with
    | zero => simp [parseString] at hp
    | succ fuel =>
      obtain ⟨-, rfl⟩ : [] = t ∧ x ++ r = rest := by simpa [parseString] using hp
      exact hj.key.of_prefix hx hr.breaks (by simp)

theorem parseValue_object_none (hhead : b.head? ≠ some 125)
    (h : ∀ p, parseMember fuel b = some p → parseMembers fuel p.2 = none) :
    parseValue (fuel + 1) (123 :: b) = none := by
  cases hm : parseMember fuel b with
  | none => simp [parseValue, hhead, hm]
  | some p => simp [parseValue, hhead, hm, h p hm]

theorem parseValue_record_cut (hj : Record k v ms) (hr : Torn r) (hg : g <+: entryText k v ms)
    (hlen : (123 :: g ++ r).length < fuel)
    (hp : parseValue fuel (123 :: g ++ r) = some (j, rest)) : j.finite = true ∧ Breaks rest := by
  by_cases hne : g = entryText k v ms
  · have htext : 123 :: g = compactText (object ((k, v) :: ms)) := by
      rw [hne, entryText, compactText]
    rw [htext] at hp hlen
    rw [parseValue_text _ _ _ hj.finite hj.sorted (by simp at hlen; omega) hr.delimited] at hp
    obtain ⟨rfl, rfl⟩ := Prod.mk.inj (Option.some.inj hp)
    exact ⟨hj.finite, hr.breaks⟩
  · cases fuel with
    | zero => omega
    | succ fuel =>
      have hhead : (g ++ r).head? ≠ some 125 := by
        cases g with
        | nil => exact fun h => (hr.breaks 125 h).2.2 rfl
        | cons c g =>
          obtain ⟨z, hz⟩ := hg
          simp only [entryText, quoted, List.cons_append, List.cons.injEq] at hz
          simp [hz.1]
      have hnone : parseValue (fuel + 1) (123 :: (g ++ r)) = none := by
        refine parseValue_object_none hhead ?_
        intro p hm
        exact parseMembers_cut hr hj.first hj.others hg hne (by simpa using hlen) hm
      simp [hnone] at hp

/-- A cut text in front of others leaves nothing that is whole and then goes on. -/
theorem torn_cut (hj : Record k v ms) (hr : Torn r)
    (hf : f <+: compactText (object ((k, v) :: ms))) : Torn (f ++ r) := by
  rw [compactText, List.prefix_cons_iff] at hf
  rcases hf with rfl | ⟨g, rfl, hg⟩
  · exact hr
  · refine ⟨by simp, ?_, ?_⟩
    · intro fuel s rest hp
      cases fuel with
      | zero => simp [parseString] at hp
      | succ fuel =>
        obtain ⟨q, hq, heq⟩ : ∃ q, parseString fuel (g ++ r) = some q ∧
            (123 :: q.1, q.2) = (s, rest) := by
          simpa [parseString] using hp
        obtain ⟨-, rfl⟩ := Prod.mk.inj heq
        exact parseString_into_record hj hr hg hq
    · intro fuel j rest hlen hp
      exact parseValue_record_cut hj hr hg hlen hp

end Nlohmann
