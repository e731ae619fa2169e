import TickForge.Lib.CommandLine
import TickForge.Lib.Decimal

/-! From the environment and the command line to the parts that `main()` constructs. -/
namespace TickForge.Startup

open ByteString Binary64 CommandLine

/-- `std::getline` with a delimiter of its own. -/
def getlineUntil (d : UInt8) : Bytes → Option (Bytes × Bytes)
  | [] => none
  | b => some (b.takeWhile (· != d), (b.dropWhile (· != d)).drop 1)

variable {d c : UInt8} {b l rest v csv : Bytes} {n : ℕ}

theorem getlineUntil_length (h : getlineUntil d b = some (l, rest)) : rest.length < b.length := by
  cases b with
  | nil => simp [getlineUntil] at h
  | cons c b =>
    simp only [getlineUntil, Option.some.injEq, Prod.mk.injEq] at h
    have hlen := (List.dropWhile_suffix (· != d) (l := c :: b)).length_le
    have hrest := congrArg List.length h.2
    simp only [List.length_drop, List.length_cons] at hrest hlen ⊢
    omega

def comma : UInt8 := 44

def splitSymbols (csv : Bytes) : List Bytes :=
  match _h : getlineUntil comma csv with
  | none => []
  | some (item, rest) => if item.isEmpty then splitSymbols rest else item :: splitSymbols rest
termination_by csv.length
decreasing_by all_goals exact getlineUntil_length _h

/-- `std::getenv`; none is a null pointer. -/
abbrev Environment := Bytes → Option Bytes

def getEnv (env : Environment) (name : Bytes) : Option Bytes :=
  match env name with
  | none => none
  | some value => if value.isEmpty then none else some value

def getEnvOr (env : Environment) (name default : Bytes) : Bytes := (getEnv env name).getD default

/-- What `std::stoul` throws. -/
inductive StdException where
  | invalidArgument
  | outOfRange
  deriving DecidableEq, Repr

def isSpace (c : UInt8) : Bool := c == 32 || (9 ≤ c && c ≤ 13)

/-- The sign of a numeral, and what follows it. -/
def splitSign : Bytes → Bool × Bytes
  | 45 :: rest => (true, rest)
  | 43 :: rest => (false, rest)
  | rest => (false, rest)

/-- `std::stoul` in base 10: a minus sign negates modulo `2 ^ 64`, and whatever follows the
digits is ignored. -/
def stoul (str : Bytes) : Except StdException ℕ :=
  let sign := splitSign (str.dropWhile isSpace)
  let digits := sign.2.takeWhile isDigit
  if digits.isEmpty then .error .invalidArgument
  else if 2 ^ 64 ≤ digitsValue digits then .error .outOfRange
  else .ok (if sign.1 then (2 ^ 64 - digitsValue digits) % 2 ^ 64 else digitsValue digits)

structure Options where
  replayPath : Bytes := []
  recordPath : Bytes := []
  queueCapacity : ℕ := 1024
  deriving DecidableEq, Repr

/-- The flags that the demo and the service share. -/
def assignPath (arg : Bytes) : Option (Bytes → Options → Except StdException Options) :=
  if arg = utf8 "--replay" then some fun value o => .ok { o with replayPath := value }
  else if arg = utf8 "--record" then some fun value o => .ok { o with recordPath := value }
  else none

def capacityFlag : Bytes := utf8 "--queue-capacity"

def assign (arg : Bytes) : Option (Bytes → Options → Except StdException Options) :=
  match assignPath arg with
  | some set => some set
  | none =>
    if arg = capacityFlag then
      some fun value o => (stoul value).map fun n => { o with queueCapacity := n }
    else none

/-- The loop over `argv` of the ingestion service, from `argv[1]` on. -/
def parseArgs (args : List Bytes) : Except StdException Options := scan assign {} args

/-- The same loop in the demo, which has no queue. -/
def parseDemoArgs (args : List Bytes) : Except StdException Options := scan assignPath {} args

inductive SourceChoice where
  | replay (path : Bytes)
  | live (symbols : List Bytes)
  deriving DecidableEq, Repr

/-- What the parts of the ingestion service are constructed from. -/
structure Parts where
  source : SourceChoice
  brokers : Bytes
  topic : Bytes
  queueCapacity : ℕ
  recordPath : Option Bytes
  deriving DecidableEq, Repr

def chooseSource (env : Environment) (o : Options) : SourceChoice :=
  if o.replayPath.isEmpty then
    .live (splitSymbols (getEnvOr env (utf8 "TICKFORGE_SYMBOLS") (utf8 "btcusdt,ethusdt")))
  else .replay o.replayPath

def chooseParts (env : Environment) (o : Options) : Parts where
  source := chooseSource env o
  brokers := getEnvOr env (utf8 "KAFKA_BOOTSTRAP_SERVERS") (utf8 "localhost:9092")
  topic := getEnvOr env (utf8 "KAFKA_TOPIC") (utf8 "market-events")
  queueCapacity := o.queueCapacity
  recordPath := if o.recordPath.isEmpty then none else some o.recordPath

/-- What `main()` of the ingestion service reads of its environment and its command line. The
constructors of the producer and of the recorder, which it calls on the way and which may
throw, are left out. -/
def startup (env : Environment) (args : List Bytes) : Except StdException Parts :=
  (parseArgs args).map (chooseParts env)

/-- A line ends at the delimiter or at the end of the text. -/
theorem getlineUntil_split (h : getlineUntil d b = some (l, rest)) :
    d ∉ l ∧ ((b = l ∧ rest = []) ∨ b = l ++ d :: rest) := by
  cases b with
  | nil => simp [getlineUntil] at h
  | cons c b =>
    simp only [getlineUntil, Option.some.injEq, Prod.mk.injEq] at h
    obtain ⟨rfl, rfl⟩ := h
    refine ⟨fun hm => by simpa using List.mem_takeWhile_imp hm, ?_⟩
    have happ := List.takeWhile_append_dropWhile (p := (· != d)) (l := c :: b)
    cases hd : (c :: b).dropWhile (· != d) with
    | nil =>
      rw [hd, List.append_nil] at happ
      exact Or.inl ⟨happ.symm, rfl⟩
    | cons x xs =>
      have hx := dropWhile_head (c :: b) x (by rw [hd]; rfl)
      obtain rfl : x = d := by simpa using hx
      rw [hd] at happ
      exact Or.inr happ.symm

theorem splitSymbols_nil : splitSymbols [] = [] := by
  rw [splitSymbols]
  rfl

/-- The items are those between the commas, less the empty ones. -/
theorem splitSymbols_eq (csv : Bytes) :
    splitSymbols csv = (csv.splitOn comma).filter (!·.isEmpty) := by
  fun_induction splitSymbols csv with
  | case1 csv h =>
    cases csv with
    | nil => rfl
    | cons c csv => simp [getlineUntil] at h
  | case2 csv item rest h hitem ih =>
    obtain ⟨hn, ⟨rfl, rfl⟩ | rfl⟩ := getlineUntil_split h
    · rw [splitSymbols_nil, List.splitOn_eq_singleton hn]
      simp [hitem]
    · rw [ih, List.splitOn_append_cons_self_of_not_mem hn]
      simp [hitem]
  | case3 csv item rest h hitem ih =>
    obtain ⟨hn, ⟨rfl, rfl⟩ | rfl⟩ := getlineUntil_split h
    · rw [splitSymbols_nil, List.splitOn_eq_singleton hn]
      simp [hitem]
    · rw [ih, List.splitOn_append_cons_self_of_not_mem hn]
      simp [hitem]

/-- A symbol that an item of the list can be. -/
def IsSymbol (x : Bytes) : Prop := x ≠ [] ∧ comma ∉ x

theorem isSymbol_splitSymbols {x : Bytes} (h : x ∈ splitSymbols csv) : IsSymbol x := by
  fun_induction splitSymbols csv with
  | case1 csv hg => cases h
  | case2 csv item rest hg hitem ih => exact ih h
  | case3 csv item rest hg hitem ih =>
    rcases List.mem_cons.mp h with rfl | h
    · exact ⟨by simpa using hitem, (getlineUntil_split hg).1⟩
    · exact ih h

/-- A value of the variable for every list of symbols; a single comma has none. -/
def joinSymbols (symbols : List Bytes) : Bytes :=
  if symbols.isEmpty then [comma] else [comma].intercalate symbols

theorem splitSymbols_joinSymbols {symbols : List Bytes} (h : ∀ x ∈ symbols, IsSymbol x) :
    splitSymbols (joinSymbols symbols) = symbols := by
  rw [splitSymbols_eq, joinSymbols]
  cases hs : symbols with
  | nil => decide
  | cons x xs =>
    rw [← hs]
    have hne : symbols ≠ [] := by simp [hs]
    rw [if_neg (by simp [hne]), List.splitOn_intercalate comma (fun l hl => (h l hl).2) hne,
      List.filter_eq_self]
    intro x hx
    simpa using (h x hx).1

theorem getEnvOr_ne_nil {env : Environment} {name default : Bytes} (h : default ≠ []) :
    getEnvOr env name default ≠ [] := by
  unfold getEnvOr getEnv
  cases env name with
  | none => exact h
  | some value =>
    by_cases hv : value = []
    · simpa [hv] using h
    · simp [hv]

theorem getEnvOr_set {env : Environment} {name value : Bytes} (default : Bytes)
    (h : env name = some value) (hv : value ≠ []) : getEnvOr env name default = value := by
  simp [getEnvOr, getEnv, h, hv]

/-- A text that `stoul` reads: blanks, a sign, digits, and anything behind them. -/
structure Readable (v : Bytes) where
  spaces : Bytes
  sign : Bytes
  digits : Bytes
  rest : Bytes
  text : v = spaces ++ (sign ++ (digits ++ rest))
  blank : ∀ c ∈ spaces, isSpace c = true
  signed : sign = [] ∨ sign = [43] ∨ sign = [45]
  digit : ∀ c ∈ digits, isDigit c = true
  nonempty : digits ≠ []
  ends : ∀ c ∈ rest.head?, isDigit c = false

theorem isDigit_plain (h : isDigit c = true) : isSpace c = false ∧ c ≠ 43 ∧ c ≠ 45 := by
  simp only [isDigit, Bool.and_eq_true, decide_eq_true_eq, UInt8.le_iff_toNat_le] at h
  simp only [isSpace, Bool.or_eq_false_iff, beq_eq_false_iff_ne, Bool.and_eq_false_iff,
    decide_eq_false_iff_not, UInt8.le_iff_toNat_le, ← UInt8.toNat_inj, ne_eq]
  have h48 : (48 : UInt8).toNat = 48 := rfl
  have h57 : (57 : UInt8).toNat = 57 := rfl
  have h32 : (32 : UInt8).toNat = 32 := rfl
  have h13 : (13 : UInt8).toNat = 13 := rfl
  have h9 : (9 : UInt8).toNat = 9 := rfl
  have h43 : (43 : UInt8).toNat = 43 := rfl
  have h45 : (45 : UInt8).toNat = 45 := rfl
  omega

theorem splitSign_sign {sign body : Bytes} (hs : sign = [] ∨ sign = [43] ∨ sign = [45])
    (hb : ∀ c ∈ body.head?, isDigit c = true) :
    splitSign (sign ++ body) = (decide (sign = [45]), body) := by
  rcases hs with rfl | rfl | rfl
  · cases body with
    | nil => rfl
    | cons c body =>
      obtain ⟨-, h43, h45⟩ := isDigit_plain (hb c rfl)
      simp [splitSign, h43, h45]
  · rfl
  · rfl

theorem splitSign_append (b : Bytes) :
    ∃ sign, (sign = [] ∨ sign = [43] ∨ sign = [45]) ∧ b = sign ++ (splitSign b).2 := by
  unfold splitSign
  split
  · exact ⟨[45], by simp, rfl⟩
  · exact ⟨[43], by simp, rfl⟩
  · exact ⟨[], by simp, rfl⟩

/-- What `stoul` makes of a text it can read. -/
theorem stoul_readable (r : Readable v) :
    stoul v = if 2 ^ 64 ≤ digitsValue r.digits then .error .outOfRange
      else .ok (if r.sign = [45] then (2 ^ 64 - digitsValue r.digits) % 2 ^ 64
        else digitsValue r.digits) := by
  obtain ⟨spaces, sign, digits, rest, rfl, hblank, hsign, hdigit, hne, hends⟩ := r
  obtain ⟨c, ds, rfl⟩ := List.exists_cons_of_ne_nil hne
  have hc : isDigit c = true := hdigit c (by simp)
  have hhead : ∀ x ∈ (sign ++ (c :: ds ++ rest)).head?, isSpace x = false := by
    rcases hsign with rfl | rfl | rfl
    · simpa using (isDigit_plain hc).1
    · simp [isSpace]
    · simp [isSpace]
  have hbody : ∀ x ∈ (c :: ds ++ rest).head?, isDigit x = true := by simp [hc]
  simp only [stoul, (takeWhile_delimited hblank hhead).2, splitSign_sign hsign hbody,
    (takeWhile_delimited hdigit hends).1]
  simp

theorem readable_of_stoul (h : stoul v ≠ .error .invalidArgument) : Nonempty (Readable v) := by
  obtain ⟨sign, hsign, hbody⟩ := splitSign_append (v.dropWhile isSpace)
  have hne : (splitSign (v.dropWhile isSpace)).2.takeWhile isDigit ≠ [] := by
    intro hnil
    simp [stoul, hnil] at h
  refine ⟨⟨v.takeWhile isSpace, sign, (splitSign (v.dropWhile isSpace)).2.takeWhile isDigit,
    (splitSign (v.dropWhile isSpace)).2.dropWhile isDigit, ?_,
    fun c hc => List.mem_takeWhile_imp hc, hsign, fun c hc => List.mem_takeWhile_imp hc, hne,
    dropWhile_head _⟩⟩
  rw [List.takeWhile_append_dropWhile, ← hbody, List.takeWhile_append_dropWhile]

theorem stoul_lt (h : stoul v = .ok n) : n < 2 ^ 64 := by
  obtain ⟨r⟩ := readable_of_stoul (v := v) (by simp [h])
  rw [stoul_readable r] at h
  split at h
  · cases h
  · cases h
    split <;> omega

theorem stoul_decimal (h : n < 2 ^ 64) : stoul (decimal n) = .ok n := by
  let r : Readable (decimal n) :=
    ⟨[], [], decimal n, [], by simp, by simp, by simp, fun c hc => isDigit_padded hc,
      decimal_ne_nil n, by simp⟩
  rw [stoul_readable r]
  simp only [r, digitsValue_decimal]
  rw [if_neg (by omega)]
  simp

theorem digitsValue_eq_zero {ds : Bytes} (hd : ∀ c ∈ ds, isDigit c = true) :
    digitsValue ds = 0 ↔ ∀ c ∈ ds, c = 48 := by
  induction ds using List.reverseRecOn with
  | nil => simp [digitsValue]
  | append_singleton ds c ih =>
    have hc : isDigit c = true := hd c (by simp)
    have h48 : (48 : UInt8).toNat = 48 := rfl
    simp only [isDigit, Bool.and_eq_true, decide_eq_true_eq, UInt8.le_iff_toNat_le] at hc
    have hih := ih fun x hx => hd x (List.mem_append_left _ hx)
    simp only [digitsValue_concat, List.mem_append, List.mem_singleton]
    constructor
    · rintro h x (hx | rfl)
      · exact hih.mp (by omega) x hx
      · rw [← UInt8.toNat_inj]
        omega
    · intro h
      have hz := hih.mpr fun x hx => h x (Or.inl hx)
      have hlast := h c (Or.inr rfl)
      rw [hlast, hz]
      rfl

/-- `stoul` reads zero exactly from zeros, with blanks, a sign and other text around them. -/
theorem stoul_eq_zero : stoul v = .ok 0 ↔ ∃ r : Readable v, ∀ c ∈ r.digits, c = 48 := by
  constructor
  · intro h
    obtain ⟨r⟩ := readable_of_stoul (v := v) (by simp [h])
    refine ⟨r, (digitsValue_eq_zero r.digit).mp ?_⟩
    rw [stoul_readable r] at h
    split at h
    · cases h
    · simp only [Except.ok.injEq] at h
      split at h <;> omega
  · rintro ⟨r, hz⟩
    rw [stoul_readable r, (digitsValue_eq_zero r.digit).mpr hz]
    simp

/-- What a value of the capacity flag stands for; an unreadable one never gets that far. -/
def capacityOf (value : Bytes) : ℕ := (stoul value).toOption.getD 0

/-- The flags of a command line with their values. -/
def given (args : List Bytes) : List (Bytes × Bytes) :=
  settings (fun arg => (assign arg).isSome) args

def isCapacity (p : Bytes × Bytes) : Bool := p.1 == capacityFlag

theorem capacityOf_lt (value : Bytes) : capacityOf value < 2 ^ 64 := by
  unfold capacityOf
  cases h : stoul value with
  | error e => simp [Except.toOption]
  | ok n => exact stoul_lt h

theorem assign_capacityFlag : assign capacityFlag =
    some fun value o => (stoul value).map fun n => { o with queueCapacity := n } := by
  have hp : assignPath capacityFlag = none := by decide
  simp [assign, hp]

theorem assign_other {arg value : Bytes} {o o' : Options} (h : arg ≠ capacityFlag)
    (ho : assignOne assign o (arg, value) = .ok o') : o'.queueCapacity = o.queueCapacity := by
  simp only [assignOne, assign, assignPath, if_neg h] at ho
  split_ifs at ho <;> cases ho <;> rfl

/-- The last capacity on the command line counts, and 1024 without any. -/
theorem queueCapacity_eq {args : List Bytes} {o : Options} (h : parseArgs args = .ok o) :
    o.queueCapacity =
      (((given args).filter isCapacity).getLast?.map fun p => capacityOf p.2).getD 1024 := by
  rw [parseArgs, scan_eq_foldlM] at h
  refine foldlM_field Options.queueCapacity isCapacity capacityOf ?_ ?_ h
  · rintro o ⟨arg, value⟩ o' hm ho
    obtain rfl : arg = capacityFlag := by simpa [isCapacity] using hm
    simp only [assignOne, assign_capacityFlag] at ho
    cases hv : stoul value with
    | error e => simp [hv, Except.map] at ho
    | ok n =>
      simp only [hv, Except.map, Except.ok.injEq] at ho
      simp [← ho, capacityOf, hv, Except.toOption]
  · rintro o ⟨arg, value⟩ o' hm ho
    exact assign_other (by simpa [isCapacity] using hm) ho

/-- A number is not a flag. -/
theorem assignPath_of_stoul {value : Bytes} {n : ℕ} (h : stoul value = .ok n) :
    assignPath value = none := by
  have hreplay : stoul (utf8 "--replay") = .error .invalidArgument := by decide
  have hrecord : stoul (utf8 "--record") = .error .invalidArgument := by decide
  unfold assignPath
  split_ifs with hv hv
  · rw [hv, hreplay] at h
    cases h
  · rw [hv, hrecord] at h
    cases h
  · rfl

theorem assign_of_path {arg : Bytes} {set : Bytes → Options → Except StdException Options}
    (h : assignPath arg = some set) : assign arg = some set := by
  rw [assign, h]

theorem assign_of_not_path {arg : Bytes} {set : Bytes → Options → Except StdException Options}
    (hp : assignPath arg = none) (h : assign arg = some set) : arg = capacityFlag := by
  simp only [assign, hp] at h
  split_ifs at h with hc
  exact hc

/-- A path flag sets its path, and looks at no other option. -/
theorem assignPath_frame {arg value : Bytes} {o o' : Options}
    {set : Bytes → Options → Except StdException Options} (q : ℕ)
    (h : assignPath arg = some set) (hs : set value o = .ok o') :
    set value { o with queueCapacity := q } = .ok { o' with queueCapacity := q } := by
  simp only [assignPath] at h
  split_ifs at h <;> cases h <;> cases hs <;> rfl

/-- Behind what the service reads the demo is where it would be without the capacities. -/
theorem scan_demo (q : ℕ) {args : List Bytes} {o o' : Options}
    (h : scan assign o args = .ok o') :
    scan assignPath { o with queueCapacity := q } args = .ok { o' with queueCapacity := q } := by
  fun_induction scan assign o args with
  | case1 => cases h
  | case2 o arg value rest set ha o₁ hs ih =>
    cases hp : assignPath arg with
    | some set' =>
      obtain rfl := Option.some.inj ((assign_of_path hp).symm.trans ha)
      rw [scan, hp]
      simp only [assignPath_frame q hp hs]
      exact ih h
    | none =>
      -- the service takes the value along, the demo passes over it as over the flag
      obtain rfl := assign_of_not_path hp ha
      rw [assign_capacityFlag] at ha
      cases ha
      cases hv : stoul value with
      | error e => simp [hv, Except.map] at hs
      | ok n =>
        obtain rfl : { o with queueCapacity := n } = o₁ := by simpa [hv, Except.map] using hs
        rw [scan_skip hp, scan_skip (assignPath_of_stoul hv)]
        exact ih h
  | case3 o arg value rest ha ih =>
    have hp : assignPath arg = none := by
      cases hp : assignPath arg with
      | none => rfl
      | some set => simp [assign_of_path hp] at ha
    rw [scan_skip hp]
    exact ih h
  | case4 o args hargs =>
    cases h
    rw [scan]
    exact hargs

theorem parseDemoArgs_total (args : List Bytes) : ∃ o, parseDemoArgs args = .ok o := by
  have hgood : ∀ o p, (∃ o', assignOne assignPath o p = .ok o') ↔ True := by
    rintro o ⟨arg, value⟩
    simp only [iff_true, assignOne, assignPath]
    split_ifs <;> exact ⟨_, rfl⟩
  rw [parseDemoArgs, scan_eq_foldlM, foldlM_ok_iff hgood]
  exact fun _ _ => trivial

/-- The demo takes any command line, and reads one that the service accepts as the same two
paths: a capacity never swallows or uncovers one of its flags. -/
theorem demo_reads_service_args (args : List Bytes) :
    (∃ o, parseDemoArgs args = .ok o) ∧
    ∀ o, parseArgs args = .ok o → parseDemoArgs args = .ok { o with queueCapacity := 1024 } :=
  ⟨parseDemoArgs_total args, fun _ h => scan_demo 1024 h⟩

/-- A capacity between the two paths. -/
theorem demo_reads_service_args_capacity :
    parseDemoArgs [utf8 "--record", utf8 "out", utf8 "--queue-capacity", utf8 "8",
      utf8 "--replay", utf8 "in"] = .ok ⟨utf8 "in", utf8 "out", 1024⟩ :=
  (demo_reads_service_args _).2 ⟨utf8 "in", utf8 "out", 8⟩ (by decide)

/-- What `main()` can read. -/
structure Parts.Valid (p : Parts) : Prop where
  replay : ∀ path, p.source = .replay path → path ≠ []
  live : ∀ symbols, p.source = .live symbols → ∀ x ∈ symbols, IsSymbol x
  brokers : p.brokers ≠ []
  topic : p.topic ≠ []
  capacity : p.queueCapacity < 2 ^ 64
  record : p.recordPath ≠ some []

theorem parts_valid {env : Environment} {args : List Bytes} {p : Parts}
    (h : startup env args = .ok p) : p.Valid := by
  unfold startup at h
  cases ho : parseArgs args with
  | error e =>
    rw [ho] at h
    cases h
  | ok o =>
    rw [ho] at h
    cases h
    refine ⟨?_, ?_, getEnvOr_ne_nil (by decide), getEnvOr_ne_nil (by decide), ?_, ?_⟩
    · intro path hpath
      simp only [chooseParts, chooseSource] at hpath
      split_ifs at hpath with he
      cases hpath
      simpa using he
    · intro symbols hlive x hx
      simp only [chooseParts, chooseSource] at hlive
      split_ifs at hlive
      cases hlive
      exact isSymbol_splitSymbols hx
    · simp only [chooseParts, queueCapacity_eq ho]
      cases ((given args).filter isCapacity).getLast? with
      | none => simp
      | some q => exact capacityOf_lt q.2
    · simp only [chooseParts]
      split_ifs with he
      · simp
      · simpa using he

/-- An environment and a command line for given parts. -/
def Parts.environment (p : Parts) : Environment := fun name =>
  if name = utf8 "TICKFORGE_SYMBOLS" then
    match p.source with
    | .live symbols => some (joinSymbols symbols)
    | .replay _ => none
  else if name = utf8 "KAFKA_BOOTSTRAP_SERVERS" then some p.brokers
  else if name = utf8 "KAFKA_TOPIC" then some p.topic
  else none

def Parts.replayPath (p : Parts) : Bytes :=
  match p.source with
  | .replay path => path
  | .live _ => []

def Parts.args (p : Parts) : List Bytes :=
  [utf8 "--replay", p.replayPath, utf8 "--record", p.recordPath.getD [], capacityFlag,
    decimal p.queueCapacity]

theorem assign_replay : assign (utf8 "--replay") =
    some fun value o => .ok { o with replayPath := value } := rfl

theorem assign_record : assign (utf8 "--record") =
    some fun value o => .ok { o with recordPath := value } := by
  have hne : utf8 "--record" ≠ utf8 "--replay" := by decide
  simp [assign, assignPath, hne]

theorem parseArgs_args {p : Parts} (h : p.queueCapacity < 2 ^ 64) :
    parseArgs p.args = .ok ⟨p.replayPath, p.recordPath.getD [], p.queueCapacity⟩ := by
  simp [parseArgs, Parts.args, scan, assign_replay, assign_record, assign_capacityFlag,
    stoul_decimal h, Except.map]

theorem joinSymbols_ne_nil {symbols : List Bytes} (h : ∀ x ∈ symbols, IsSymbol x) :
    joinSymbols symbols ≠ [] := by
  intro hnil
  have hs := splitSymbols_joinSymbols h
  rw [hnil, splitSymbols_nil] at hs
  rw [← hs] at hnil
  cases hnil

/-- Reading the command line and the environment that were written for given parts gives
these parts back. -/
theorem startup_args {p : Parts} (h : p.Valid) : startup p.environment p.args = .ok p := by
  have hb : p.environment (utf8 "KAFKA_BOOTSTRAP_SERVERS") = some p.brokers := by
    have hne : utf8 "KAFKA_BOOTSTRAP_SERVERS" ≠ utf8 "TICKFORGE_SYMBOLS" := by decide
    simp [Parts.environment, hne]
  have ht : p.environment (utf8 "KAFKA_TOPIC") = some p.topic := by
    have hne : utf8 "KAFKA_TOPIC" ≠ utf8 "TICKFORGE_SYMBOLS" := by decide
    have hne' : utf8 "KAFKA_TOPIC" ≠ utf8 "KAFKA_BOOTSTRAP_SERVERS" := by decide
    simp [Parts.environment, hne, hne']
  have hsource : chooseSource p.environment
      ⟨p.replayPath, p.recordPath.getD [], p.queueCapacity⟩ = p.source := by
    cases hs : p.source with
    | replay path =>
      have hpath := h.replay path hs
      simp [chooseSource, Parts.replayPath, hs, hpath]
    | live symbols =>
      have hsym := h.live symbols hs
      have henv : p.environment (utf8 "TICKFORGE_SYMBOLS") = some (joinSymbols symbols) := by
        simp [Parts.environment, hs]
      simp [chooseSource, Parts.replayPath, hs, getEnvOr_set _ henv (joinSymbols_ne_nil hsym),
        splitSymbols_joinSymbols hsym]
  have hrecord : (if (p.recordPath.getD []).isEmpty then none else some (p.recordPath.getD [])) =
      p.recordPath := by
    cases hr : p.recordPath with
    | none => rfl
    | some path =>
      have hne : path ≠ [] := by
        rintro rfl
        exact h.record hr
      simp [hne]
  simp only [startup, parseArgs_args h.capacity, Except.map, chooseParts, hsource, hrecord,
    getEnvOr_set _ hb h.brokers, getEnvOr_set _ ht h.topic]

theorem assign_succeeds (o : Options) (q : Bytes × Bytes) :
    (∃ o', assignOne assign o q = .ok o') ↔
      (isCapacity q = true → ∃ n, stoul q.2 = .ok n) := by
  obtain ⟨arg, value⟩ := q
  by_cases harg : arg = capacityFlag
  · subst harg
    simp only [assignOne, assign_capacityFlag, isCapacity, beq_self_eq_true, true_implies]
    cases stoul value <;> simp [Except.map]
  · have hno : isCapacity (arg, value) = false := by simpa [isCapacity] using harg
    simp only [hno, Bool.false_eq_true, false_implies, iff_true, assignOne, assign, assignPath,
      if_neg harg]
    split_ifs <;> exact ⟨_, rfl⟩

theorem parseArgs_ok_iff (args : List Bytes) :
    (∃ o, parseArgs args = .ok o) ↔
      ∀ q ∈ given args, isCapacity q = true → ∃ n, stoul q.2 = .ok n := by
  rw [given, ← foldlM_ok_iff assign_succeeds ({} : Options), ← scan_eq_foldlM]
  rfl

/-- Texts as a process can be given them. -/
structure CStrings (env : Environment) (args : List Bytes) : Prop where
  env : ∀ name value, env name = some value → 0 ∉ value
  args : ∀ arg ∈ args, 0 ∉ arg

structure Parts.NulFree (p : Parts) : Prop where
  replay : ∀ path, p.source = .replay path → 0 ∉ path
  live : ∀ symbols, p.source = .live symbols → ∀ x ∈ symbols, 0 ∉ x
  brokers : 0 ∉ p.brokers
  topic : 0 ∉ p.topic
  record : ∀ path, p.recordPath = some path → 0 ∉ path

theorem mem_splitSymbols {x : Bytes} (h : x ∈ splitSymbols csv) (hc : c ∈ x) : c ∈ csv := by
  fun_induction splitSymbols csv with
  | case1 csv hg => cases h
  | case2 csv item rest hg hitem ih =>
    obtain ⟨-, ⟨rfl, rfl⟩ | rfl⟩ := getlineUntil_split hg
    · simp [splitSymbols_nil] at h
    · simp [ih h]
  | case3 csv item rest hg hitem ih =>
    obtain ⟨-, hcsv⟩ := getlineUntil_split hg
    rcases List.mem_cons.mp h with rfl | hx
    · rcases hcsv with ⟨rfl, -⟩ | rfl <;> simp [hc]
    · rcases hcsv with ⟨rfl, rfl⟩ | rfl
      · simp [splitSymbols_nil] at hx
      · simp [ih hx]

theorem mem_joinSymbols {symbols : List Bytes} (h : c ∈ joinSymbols symbols) :
    c = comma ∨ ∃ x ∈ symbols, c ∈ x := by
  unfold joinSymbols at h
  split_ifs at h with hs
  · exact Or.inl (List.mem_singleton.mp h)
  · clear hs
    induction symbols with
    | nil => simp at h
    | cons x xs ih =>
      cases xs with
      | nil => exact Or.inr ⟨x, by simp, by simpa using h⟩
      | cons y ys =>
        rw [List.intercalate_cons_cons, List.mem_append, List.mem_append] at h
        rcases h with (h | h) | h
        · exact Or.inr ⟨x, by simp, h⟩
        · exact Or.inl (List.mem_singleton.mp h)
        · rcases ih h with hcomma | ⟨z, hz, hmem⟩
          · exact Or.inl hcomma
          · exact Or.inr ⟨z, List.mem_cons_of_mem _ hz, hmem⟩

theorem CStrings.getEnvOr {env : Environment} {args : List Bytes} (h : CStrings env args)
    (name : Bytes) {default : Bytes} (hd : 0 ∉ default) :
    0 ∉ Startup.getEnvOr env name default := by
  unfold Startup.getEnvOr getEnv
  cases hv : env name with
  | none => exact hd
  | some value =>
    have hvalue := h.env name value hv
    by_cases hnil : value = []
    · simpa [hnil] using hd
    · simpa [hnil] using hvalue

theorem CStrings.parseArgs {env : Environment} {args : List Bytes} {o : Options}
    (h : CStrings env args) (ho : Startup.parseArgs args = .ok o) :
    0 ∉ o.replayPath ∧ 0 ∉ o.recordPath := by
  refine scan_invariant (P := fun o : Options => 0 ∉ o.replayPath ∧ 0 ∉ o.recordPath)
    (Q := fun arg => 0 ∉ arg) ?_ ⟨by simp, by simp⟩ h.args ho
  intro arg set value o o' ha hs hvalue hfree
  cases hp : assignPath arg with
  | some set' =>
    obtain rfl := Option.some.inj ((assign_of_path hp).symm.trans ha)
    simp only [assignPath] at hp
    split_ifs at hp <;> cases hp <;> cases hs
    · exact ⟨hvalue, hfree.2⟩
    · exact ⟨hfree.1, hvalue⟩
  | none =>
    obtain rfl := assign_of_not_path hp ha
    rw [assign_capacityFlag] at ha
    cases ha
    cases hv : stoul value with
    | error e => simp [hv, Except.map] at hs
    | ok n =>
      obtain rfl : { o with queueCapacity := n } = o' := by simpa [hv, Except.map] using hs
      exact hfree

/-- No byte comes into the parts that was not in the texts. -/
theorem parts_nulFree {env : Environment} {args : List Bytes} {p : Parts}
    (hc : CStrings env args) (h : startup env args = .ok p) : p.NulFree := by
  unfold startup at h
  cases ho : parseArgs args with
  | error e =>
    rw [ho] at h
    cases h
  | ok o =>
    rw [ho] at h
    cases h
    obtain ⟨hreplay, hrecord⟩ := hc.parseArgs ho
    refine ⟨?_, ?_, hc.getEnvOr _ (by decide), hc.getEnvOr _ (by decide), ?_⟩
    · intro path hpath
      simp only [chooseParts, chooseSource] at hpath
      split_ifs at hpath
      cases hpath
      exact hreplay
    · intro symbols hlive x hx hnul
      simp only [chooseParts, chooseSource] at hlive
      split_ifs at hlive
      cases hlive
      exact hc.getEnvOr (utf8 "TICKFORGE_SYMBOLS") (by decide) (mem_splitSymbols hx hnul)
    · intro path hpath
      simp only [chooseParts] at hpath
      split_ifs at hpath
      cases hpath
      exact hrecord

theorem cStrings_args {p : Parts} (h : p.NulFree) : CStrings p.environment p.args := by
  constructor
  · intro name value hv
    unfold Parts.environment at hv
    split_ifs at hv with hsymbols hbrokers htopic
    · cases hs : p.source with
      | replay path => simp [hs] at hv
      | live symbols =>
        obtain rfl : joinSymbols symbols = value := by simpa [hs] using hv
        intro hnul
        rcases mem_joinSymbols hnul with hcomma | ⟨x, hx, hmem⟩
        · exact absurd hcomma (by decide)
        · exact h.live symbols hs x hx hmem
    · cases hv
      exact h.brokers
    · cases hv
      exact h.topic
  · have hreplay : 0 ∉ p.replayPath := by
      unfold Parts.replayPath
      split
      · exact h.replay _ ‹_›
      · simp
    have hrecord : 0 ∉ p.recordPath.getD [] := by
      cases hr : p.recordPath with
      | none => simp
      | some path => exact h.record path hr
    have hcapacity : 0 ∉ decimal p.queueCapacity := by
      intro hnul
      exact absurd (isDigit_padded hnul) (by decide)
    have hflags : 0 ∉ utf8 "--replay" ∧ 0 ∉ utf8 "--record" ∧ 0 ∉ capacityFlag := by decide
    simpa [Parts.args] using
      ⟨hflags.1, hreplay, hflags.2.1, hrecord, hflags.2.2, hcapacity⟩

/-- The service accepts its command line exactly when every capacity on it is readable. What
it reads is valid, and everything valid can be asked for; texts without a NUL byte stand for
the valid parts without one. -/
theorem startup_exact :
    (∀ env args, (∃ p, startup env args = .ok p) ↔
      ∀ q ∈ given args, isCapacity q = true → ∃ n, stoul q.2 = .ok n) ∧
    (∀ p : Parts, (∃ env args, startup env args = .ok p) ↔ p.Valid) ∧
    (∀ p : Parts, p.Valid → startup p.environment p.args = .ok p) ∧
    ∀ p : Parts, (∃ env args, CStrings env args ∧ startup env args = .ok p) ↔
      p.Valid ∧ p.NulFree := by
  refine ⟨fun env args => ?_, fun p => ⟨?_, ?_⟩, fun p => startup_args, fun p => ⟨?_, ?_⟩⟩
  · rw [← parseArgs_ok_iff, startup]
    cases parseArgs args <;> simp [Except.map]
  · rintro ⟨env, args, h⟩
    exact parts_valid h
  · intro h
    exact ⟨p.environment, p.args, startup_args h⟩
  · rintro ⟨env, args, hc, h⟩
    exact ⟨parts_valid h, parts_nulFree hc h⟩
  · rintro ⟨hvalid, hnul⟩
    exact ⟨p.environment, p.args, cStrings_args hnul, startup_args hvalid⟩

/-- The name of a symbol's stream. -/
def stream (symbol : Bytes) : Bytes := symbol.map toLower ++ utf8 "@trade"

def buildTarget (symbols : List Bytes) : Bytes :=
  symbols.zipIdx.foldl
    (fun target x => (if 0 < x.2 then target ++ utf8 "/" else target) ++ stream x.1)
    (utf8 "/stream?streams=")

theorem foldl_streams (symbols : List Bytes) (k : ℕ) (target : Bytes) :
    (symbols.zipIdx (k + 1)).foldl
      (fun target x => (if 0 < x.2 then target ++ utf8 "/" else target) ++ stream x.1) target =
        target ++ symbols.flatMap fun x => 47 :: stream x := by
  induction symbols generalizing k target with
  | nil => simp
  | cons x xs ih =>
    have hslash : utf8 "/" = [47] := by decide
    rw [List.zipIdx_cons, List.foldl_cons, ih, if_pos (Nat.succ_pos k), hslash]
    simp

theorem intercalate_streams (x : Bytes) (xs : List Bytes) :
    [47].intercalate ((x :: xs).map stream) = stream x ++ xs.flatMap fun x => 47 :: stream x := by
  induction xs generalizing x with
  | nil => simp
  | cons y ys ih =>
    rw [List.map_cons, List.map_cons, List.intercalate_cons_cons, ← List.map_cons, ih]
    simp

theorem buildTarget_eq (symbols : List Bytes) :
    buildTarget symbols = utf8 "/stream?streams=" ++ [47].intercalate (symbols.map stream) := by
  cases symbols with
  | nil => simp [buildTarget]
  | cons x xs =>
    rw [buildTarget, List.zipIdx_cons, List.foldl_cons, foldl_streams, if_neg (Nat.lt_irrefl 0),
      intercalate_streams, List.append_assoc]

/-- Items that are not empty can be told from their joined text. -/
theorem intercalate_inj {ls ms : List Bytes} (hl : ∀ l ∈ ls, d ∉ l ∧ l ≠ [])
    (hm : ∀ m ∈ ms, d ∉ m ∧ m ≠ []) (h : [d].intercalate ls = [d].intercalate ms) : ls = ms := by
  have hnil : ∀ {zs : List Bytes}, (∀ z ∈ zs, d ∉ z ∧ z ≠ []) → [d].intercalate zs = [] →
      zs = [] := by
    intro zs hz hi
    by_contra hne
    have hsplit := List.splitOn_intercalate d (fun z hmem => (hz z hmem).1) hne
    rw [hi, List.splitOn_nil] at hsplit
    exact (hz [] (by rw [← hsplit]; simp)).2 rfl
  by_cases hls : ls = []
  · rw [hls] at h ⊢
    exact (hnil hm h.symm).symm
  · have hms : ms ≠ [] := by
      rintro rfl
      exact hls (hnil hl h)
    rw [← List.splitOn_intercalate d (fun l hmem => (hl l hmem).1) hls, h,
      List.splitOn_intercalate d (fun m hmem => (hm m hmem).1) hms]

theorem toLower_slash (h : toLower c = 47) : c = 47 := by
  unfold toLower at h
  split_ifs at h with hc
  · simp only [Bool.and_eq_true, decide_eq_true_eq, UInt8.le_iff_toNat_le] at hc
    have hsum := congrArg UInt8.toNat h
    have h65 : (65 : UInt8).toNat = 65 := rfl
    have h90 : (90 : UInt8).toNat = 90 := rfl
    have h32 : (32 : UInt8).toNat = 32 := rfl
    have h47 : (47 : UInt8).toNat = 47 := rfl
    rw [UInt8.toNat_add] at hsum
    omega
  · exact h

theorem stream_item {x : Bytes} (h : 47 ∉ x) : 47 ∉ stream x ∧ stream x ≠ [] := by
  have hsuffix : 47 ∉ utf8 "@trade" := by decide
  have hne : utf8 "@trade" ≠ [] := by decide
  refine ⟨?_, by simp [stream, hne]⟩
  simp only [stream, List.mem_append, List.mem_map, not_or, not_exists, not_and]
  refine ⟨fun c hc he => ?_, hsuffix⟩
  rw [toLower_slash he] at hc
  exact h hc

/-- Two lists of symbols ask for the same streams only if they agree up to letter case, as
long as no symbol holds a slash. -/
theorem target_determines_streams {xs ys : List Bytes} (hx : ∀ x ∈ xs, 47 ∉ x)
    (hy : ∀ y ∈ ys, 47 ∉ y) :
    buildTarget xs = buildTarget ys ↔ xs.map (·.map toLower) = ys.map (·.map toLower) := by
  have hitems : ∀ {zs : List Bytes}, (∀ z ∈ zs, 47 ∉ z) →
      ∀ l ∈ zs.map stream, 47 ∉ l ∧ l ≠ [] := by
    intro zs hz l hl
    obtain ⟨z, hmem, rfl⟩ := List.mem_map.mp hl
    exact stream_item (hz z hmem)
  have hstream : ∀ zs : List Bytes,
      zs.map stream = (zs.map (·.map toLower)).map (· ++ utf8 "@trade") := by
    intro zs
    rw [List.map_map]
    rfl
  have hinj : Function.Injective fun l : Bytes => l ++ utf8 "@trade" :=
    fun _ _ h => List.append_cancel_right h
  rw [buildTarget_eq, buildTarget_eq, List.append_cancel_left_eq]
  constructor
  · intro h
    have hmap := intercalate_inj (hitems hx) (hitems hy) h
    rw [hstream, hstream] at hmap
    exact hinj.list_map hmap
  · intro h
    rw [hstream, hstream, h]

theorem target_determines_streams_case :
    buildTarget [utf8 "BTCUSDT", utf8 "ethusdt"] = buildTarget [utf8 "btcusdt", utf8 "EthUSDT"] :=
  (target_determines_streams (by decide) (by decide)).mpr (by decide)

end TickForge.Startup
