import TickForge.Lib.Double

/-! JSON values as `nlohmann::json` holds them, and its text functions as parameters. -/
namespace Nlohmann

open ByteString Binary64

/-- An integer literal that fits `int64_t` or `uint64_t`; the two kinds compare by value. -/
structure Integer where
  val : ℤ
  lower : -2 ^ 63 ≤ val
  upper : val < 2 ^ 64
  deriving DecidableEq, Repr

namespace Integer

@[ext] theorem ext {x y : Integer} (h : x.val = y.val) : x = y := by
  cases x
  cases y
  simp_all

def ofInt64 (x : Int64) : Integer :=
  ⟨x.toInt, x.le_toInt, by have := x.toInt_lt; omega⟩

def ofUInt64 (x : UInt64) : Integer :=
  ⟨x.toNat, by omega, by have := x.toNat_lt; omega⟩

/-- `static_cast<std::int64_t>`. -/
def toInt64 (z : Integer) : Int64 := .ofInt z.val

/-- `static_cast<std::uint64_t>`. -/
def toUInt64 (z : Integer) : UInt64 := .ofInt z.val

@[simp] theorem toInt64_ofInt64 (x : Int64) : (ofInt64 x).toInt64 = x := by
  simp [ofInt64, toInt64]

@[simp] theorem toUInt64_ofUInt64 (x : UInt64) : (ofUInt64 x).toUInt64 = x := by
  apply UInt64.toNat.inj
  have := x.toNat_lt
  simp only [ofUInt64, toUInt64, UInt64.ofInt, UInt64.toNat_ofNat']
  omega

end Integer

/-- Object members are sorted by key, as in the `std::map` they are kept in. -/
inductive Json where
  | null
  | boolean (b : Bool)
  | integer (z : Integer)
  | float (d : Double)
  | string (s : Bytes)
  | array (elems : List Json)
  | object (members : List (Bytes × Json))

/-- What the library's functions throw. Only the text of a parse error is ever read. -/
inductive Exception where
  | parseError (what : Bytes)
  | typeError
  | outOfRange
  deriving DecidableEq, Repr

/-- `operator[]` of the member map, followed by an assignment. -/
def insert (key : Bytes) (v : Json) : List (Bytes × Json) → List (Bytes × Json)
  | [] => [(key, v)]
  | m :: ms =>
    if m.1 = key then (key, v) :: ms
    else if key < m.1 then (key, v) :: m :: ms
    else m :: insert key v ms

namespace Json

def isObject : Json → Bool
  | object _ => true
  | _ => false

def isString : Json → Bool
  | string _ => true
  | _ => false

def isNumberInteger : Json → Bool
  | integer _ => true
  | _ => false

def isNumber : Json → Bool
  | integer _ | float _ => true
  | _ => false

/-- Comparison with a string literal. -/
def isText (s : Bytes) : Json → Bool
  | string t => t == s
  | _ => false

/-- The member under a key; none for a value that is no object. -/
def find? (key : Bytes) : Json → Option Json
  | object ms => (ms.find? (·.1 == key)).map (·.2)
  | _ => none

def contains (key : Bytes) (j : Json) : Bool := (j.find? key).isSome

def at_ (key : Bytes) (j : Json) : Except Exception Json :=
  match j with
  | object _ =>
    match j.find? key with
    | some v => .ok v
    | none => .error .outOfRange
  | _ => .error .typeError

def getString : Json → Except Exception Bytes
  | string s => .ok s
  | _ => .error .typeError

def getDouble : Json → Except Exception Double
  | integer z => .ok (.ofInt z.val)
  | float d => .ok d
  | _ => .error .typeError

def getInt64 : Json → Except Exception Int64
  | integer z => .ok z.toInt64
  | float d => .ok (.ofInt d.truncate)
  | _ => .error .typeError

def getUInt64 : Json → Except Exception UInt64
  | integer z => .ok z.toUInt64
  | float d => .ok (.ofInt d.truncate)
  | _ => .error .typeError

/-- `contains(key) && at(key).is_...()`. -/
def has (key : Bytes) (is : Json → Bool) (j : Json) : Except Exception Bool :=
  if j.contains key then return is (← j.at_ key) else return false

/-- `at(key).get<...>()`. -/
def getAt (key : Bytes) (get : Json → Except Exception α) (j : Json) : Except Exception α := do
  get (← j.at_ key)

/-- `contains(key) && at(key).is_string() && !at(key).get<std::string>().empty()`. -/
def hasNonEmptyString (key : Bytes) (j : Json) : Except Exception Bool := do
  if ← j.has key isString then return !(← j.getAt key getString).isEmpty else return false

/-- The member under a key, read by a partial view of values. -/
def view (as? : Json → Option α) (key : Bytes) (j : Json) : Option α := (j.find? key).bind as?

def asString? : Json → Option Bytes
  | string s => some s
  | _ => none

def asInteger? : Json → Option Integer
  | integer z => some z
  | _ => none

def asNumber? : Json → Option Double
  | integer z => some (.ofInt z.val)
  | float d => some d
  | _ => none

variable {α β : Type} {j v : Json} {key : Bytes} {as? : Json → Option α} {is : Json → Bool}
  {get : Json → Except Exception β} {a : α} {b : β}

theorem at_of_find? (h : j.find? key = some v) : j.at_ key = .ok v := by
  cases j with
  | object ms => simp [at_, h]
  | _ => simp [find?] at h

/-- A guard of the kind `contains && is_...` never throws. -/
theorem has_eq (h : ∀ v, is v = (as? v).isSome) :
    j.has key is = .ok (j.view as? key).isSome := by
  cases hv : j.find? key with
  | none => simp [has, contains, view, hv, pure, Except.pure]
  | some v => simp [has, contains, view, hv, at_of_find? hv, h, pure, Except.pure, bind, Except.bind]

/-- Behind its guard an access does not throw either. -/
theorem getAt_eq (hv : j.view as? key = some a) (h : ∀ {v}, as? v = some a → get v = .ok b) :
    j.getAt key get = .ok b := by
  obtain ⟨v, hf, ha⟩ := Option.bind_eq_some_iff.mp hv
  rw [getAt, at_of_find? hf]
  exact h ha

theorem isObject_of_view (hv : j.view as? key = some a) : j.isObject = true := by
  cases j with
  | object ms => rfl
  | _ => simp [view, find?] at hv

theorem isString_eq (v : Json) : v.isString = v.asString?.isSome := by cases v <;> rfl

theorem isNumberInteger_eq (v : Json) : v.isNumberInteger = v.asInteger?.isSome := by
  cases v <;> rfl

theorem isNumber_eq (v : Json) : v.isNumber = v.asNumber?.isSome := by cases v <;> rfl

theorem getString_of {s : Bytes} (h : v.asString? = some s) : v.getString = .ok s := by
  cases v <;> simp_all [asString?, getString]

theorem getDouble_of {d : Double} (h : v.asNumber? = some d) : v.getDouble = .ok d := by
  cases v <;> simp_all [asNumber?, getDouble]

theorem getInt64_of {z : Integer} (h : v.asInteger? = some z) : v.getInt64 = .ok z.toInt64 := by
  cases v <;> simp_all [asInteger?, getInt64]

theorem getUInt64_of {z : Integer} (h : v.asInteger? = some z) : v.getUInt64 = .ok z.toUInt64 := by
  cases v <;> simp_all [asInteger?, getUInt64]

theorem hasNonEmptyString_eq (key : Bytes) (j : Json) :
    j.hasNonEmptyString key = .ok ((j.view asString? key).any (!·.isEmpty)) := by
  rw [hasNonEmptyString, has_eq isString_eq]
  cases h : j.view asString? key with
  | none => rfl
  | some s => simp [getAt_eq h getString_of, bind, Except.bind, pure, Except.pure]

mutual

/-- `p` holds of every value in the tree. -/
def everywhere (p : Json → Bool) : Json → Bool
  | array es => p (array es) && everywhereElems p es
  | object ms => p (object ms) && everywhereMembers p ms
  | j => p j

def everywhereElems (p : Json → Bool) : List Json → Bool
  | [] => true
  | e :: es => everywhere p e && everywhereElems p es

def everywhereMembers (p : Json → Bool) : List (Bytes × Json) → Bool
  | [] => true
  | (_, v) :: ms => everywhere p v && everywhereMembers p ms

end

theorem everywhere_of_mem {p : Json → Bool} {ms : List (Bytes × Json)} {m : Bytes × Json}
    (h : everywhereMembers p ms = true) (hm : m ∈ ms) : everywhere p m.2 = true := by
  induction ms with
  | nil => simp at hm
  | cons n ms ih =>
    obtain ⟨k, w⟩ := n
    simp only [everywhereMembers, Bool.and_eq_true] at h
    rcases List.mem_cons.mp hm with rfl | hm
    · exact h.1
    · exact ih h.2 hm

theorem everywhere_find? {p : Json → Bool} (h : everywhere p j = true)
    (hv : j.find? key = some v) : everywhere p v = true := by
  cases j with
  | object ms =>
    simp only [everywhere, Bool.and_eq_true] at h
    obtain ⟨m, hm, rfl⟩ := Option.map_eq_some_iff.mp hv
    exact everywhere_of_mem h.2 (List.mem_of_find?_eq_some hm)
  | _ => simp [find?] at hv

def stringValid : Json → Bool
  | string s => ValidUtf8 s
  | object ms => ms.all fun m => ValidUtf8 m.1
  | _ => true

/-- Every string and every key is valid UTF-8. -/
def utf8Valid : Json → Bool := everywhere stringValid

theorem validUtf8_of_view {s : Bytes} (h : j.utf8Valid = true)
    (hv : j.view asString? key = some s) : ValidUtf8 s := by
  obtain ⟨v, hf, hs⟩ := Option.bind_eq_some_iff.mp hv
  have hu := everywhere_find? h hf
  cases v with
  | string t =>
    obtain rfl : t = s := by simpa [asString?] using hs
    simpa [everywhere, stringValid] using hu
  | _ => simp [asString?] at hs

def floatFinite : Json → Bool
  | float d => d.isFinite
  | _ => true

/-- No number is infinite or NaN. -/
def finite : Json → Bool := everywhere floatFinite

def keysSorted : Json → Bool
  | object ms => (ms.map (·.1)).Pairwise (· < ·)
  | _ => true

def sorted : Json → Bool := everywhere keysSorted

mutual

/-- The value whose text a non-finite number shares: `null` in its place. -/
def finitize : Json → Json
  | float d => if d.isFinite then float d else null
  | array es => array (finitizeElems es)
  | object ms => object (finitizeMembers ms)
  | j => j

def finitizeElems : List Json → List Json
  | [] => []
  | e :: es => finitize e :: finitizeElems es

def finitizeMembers : List (Bytes × Json) → List (Bytes × Json)
  | [] => []
  | (k, v) :: ms => (k, finitize v) :: finitizeMembers ms

end

end Json

/-- The library's text functions, as far as `parse` and `dump` depend on them. -/
structure Codec where
  /-- The text is syntactically valid. -/
  accepts : Bytes → Bool
  /-- A number literal of the text is beyond every `double`. -/
  overflows : Bytes → Bool
  value : Bytes → Json
  what : Bytes → Bytes
  text : Json → Bytes

namespace Codec

/-- `json::parse`: error 101 for an invalid text, error 406 for an overflowing literal. The
library throws the latter where it meets the literal; that it throws the former for every
invalid text, also for one that goes wrong behind such a literal, is assumed. -/
def parse (c : Codec) (b : Bytes) : Except Exception Json :=
  if !c.accepts b then .error (.parseError (c.what b))
  else if c.overflows b then .error .outOfRange
  else .ok (c.value b)

/-- `json::dump`: error 316 for a string that is not UTF-8. -/
def dump (c : Codec) (j : Json) : Except Exception Bytes :=
  if j.utf8Valid then .ok (c.text j) else .error .typeError

/-- A value that is written without loss. -/
def Printable (j : Json) : Prop := j.utf8Valid ∧ j.finite ∧ j.sorted

instance (j : Json) : Decidable (Printable j) := inferInstanceAs (Decidable (_ ∧ _ ∧ _))

/-- What is relied on of the printer and the parser together. -/
structure Lawful (c : Codec) : Prop where
  parse_text : ∀ {j}, Printable j → c.parse (c.text j) = .ok j
  text_ne_nil : ∀ {j}, Printable j → c.text j ≠ []
  newline_notMem : ∀ {j}, Printable j → newline ∉ c.text j

/-- A non-finite number is written as `null`. -/
def NonFiniteAsNull (c : Codec) : Prop := ∀ j : Json, j.utf8Valid → c.text j = c.text j.finitize

/-- Parsing refuses strings that are not UTF-8. -/
def ReadsUtf8 (c : Codec) : Prop := ∀ {b j}, c.parse b = .ok j → j.utf8Valid

/-- Parsing gives no infinite number and no NaN. -/
def ReadsFinite (c : Codec) : Prop := ∀ {b j}, c.parse b = .ok j → j.finite

end Codec

end Nlohmann
