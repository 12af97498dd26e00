import PulseStream.Core.Event

/-!
# Configuration from the environment

`pulsestream-core/src/config.rs`. The module promises that a variable that is set but invalid is
always an error and that defaults apply only to unset variables. `ApiConfig.fromLookup_reads` and
`WorkerConfig.fromLookup_reads` prove that of `from_lookup`. But `from_env` passes it the
environment through `std::env::var(key).ok()`, which takes a value that is not Unicode for no value,
and `env_respected_iff` says what is left of the promise.

`SocketAddr` and its parser are parameters.
-/

namespace PulseStream

namespace Config

/-! ## Variables and their ranges -/

def apiBindVar : String := "PULSESTREAM_API_BIND"
def databaseUrlVar : String := "DATABASE_URL"
def dbMaxConnectionsVar : String := "PULSESTREAM_DB_MAX_CONNECTIONS"
def dbAcquireTimeoutMsVar : String := "PULSESTREAM_DB_ACQUIRE_TIMEOUT_MS"
def migrateOnStartVar : String := "PULSESTREAM_MIGRATE_ON_START"
def workerConcurrencyVar : String := "PULSESTREAM_WORKER_CONCURRENCY"
def pollIntervalMsVar : String := "PULSESTREAM_POLL_INTERVAL_MS"
def processingLeaseMsVar : String := "PULSESTREAM_PROCESSING_LEASE_MS"
def shutdownTimeoutMsVar : String := "PULSESTREAM_SHUTDOWN_TIMEOUT_MS"

/-- `RangeInclusive<u64>`. -/
structure RangeInclusive where
  first : ℕ
  last : ℕ
  deriving DecidableEq

def RangeInclusive.contains (range : RangeInclusive) (n : ℕ) : Prop :=
  range.first ≤ n ∧ n ≤ range.last

instance (range : RangeInclusive) : DecidablePred range.contains := fun n => by
  unfold RangeInclusive.contains
  infer_instance

def defaultApiBind : String := "127.0.0.1:8088"
def defaultDbMaxConnections : ℕ := 10
def dbMaxConnectionsRange : RangeInclusive := ⟨1, 50⟩
def defaultDbAcquireTimeoutMs : ℕ := 3000
def dbAcquireTimeoutMsRange : RangeInclusive := ⟨100, 60000⟩
def defaultWorkerConcurrency : ℕ := 4
def workerConcurrencyRange : RangeInclusive := ⟨1, 64⟩
def defaultPollIntervalMs : ℕ := 250
def pollIntervalMsRange : RangeInclusive := ⟨10, 60000⟩
def defaultProcessingLeaseMs : ℕ := 30000
def processingLeaseMsRange : RangeInclusive := ⟨1000, 3600000⟩
def defaultShutdownTimeoutMs : ℕ := 10000
def shutdownTimeoutMsRange : RangeInclusive := ⟨1, 300000⟩

inductive ConfigError where
  | missing (var : String)
  | invalidBindAddress (var value : String)
  | empty (var : String)
  | unsupportedDatabaseScheme (var : String)
  | missingDatabaseHost (var : String)
  | outOfRange (var value : String) (min max : ℕ)
  | invalidBool (var value : String)
  deriving DecidableEq, Repr

/-- A lookup function, such as `|key| std::env::var(key).ok()`. -/
abbrev Lookup := String → Option String

/-! ## Integers -/

/-- The digit of a character, in base ten. -/
def digit (c : Char) : Option ℕ := if c.isDigit then some (c.toNat - '0'.toNat) else none

/-- `u64::from_str`: an optional `+` and at least one digit, without overflow. -/
def parseU64 (text : List Char) : Option ℕ :=
  let digits := match text with
    | '+' :: rest => rest
    | _ => text
  if digits.isEmpty then none
  else digits.foldlM (fun value c => do
    let d ← digit c
    if value * 10 + d < 2 ^ 64 then some (value * 10 + d) else none) 0

/-- The number that a string of digits denotes. -/
def decimal (digits : List Char) : ℕ :=
  digits.foldl (fun value c => value * 10 + (c.toNat - '0'.toNat)) 0

/-- The text is the number in decimal notation. -/
def Decimal (text : List Char) (n : ℕ) : Prop :=
  ∃ digits, (text = digits ∨ text = '+' :: digits) ∧ digits ≠ [] ∧
    (∀ c ∈ digits, c.isDigit = true) ∧ n = decimal digits

/-! ## `DatabaseUrl` -/

/-- The rest of a URL after `postgres://` or `postgresql://`. -/
def afterScheme (value : List Char) : Option (List Char) :=
  (value.dropPrefix? "postgres://".toList).or (value.dropPrefix? "postgresql://".toList)

/-- `rest.split(['/', '?']).next()`. -/
def authorityOf (rest : List Char) : List Char := rest.takeWhile fun c => c != '/' && c != '?'

/-- `authority.rsplit('@').next()`. -/
def hostOf (authority : List Char) : List Char :=
  (authority.reverse.takeWhile fun c => c != '@').reverse

/-- The checks of `DatabaseUrl::parse` on the trimmed value. -/
def validateUrl (value : List Char) : Except ConfigError Unit :=
  if value.isEmpty then .error (.empty databaseUrlVar)
  else match afterScheme value with
    | none => .error (.unsupportedDatabaseScheme databaseUrlVar)
    | some rest =>
      if (hostOf (authorityOf rest)).isEmpty || (hostOf (authorityOf rest)).head? == some ':' then
        .error (.missingDatabaseHost databaseUrlVar)
      else .ok ()

/-- A validated PostgreSQL connection URL. -/
structure DatabaseUrl where
  value : List Char
  valid : validateUrl value = .ok ()
  deriving DecidableEq

/-- The authority of the URL, as `DatabaseUrl::parse` delimits it. -/
def DatabaseUrl.authority (u : DatabaseUrl) : List Char :=
  authorityOf ((afterScheme u.value).getD [])

def DatabaseUrl.parse (value : String) : Except ConfigError DatabaseUrl :=
  match h : validateUrl (trim value) with
  | .ok () => .ok ⟨trim value, h⟩
  | .error e => .error e

/-! ## Reading the variables -/

structure Duration where
  millis : ℕ
  deriving DecidableEq

def Duration.fromMillis (millis : ℕ) : Duration := ⟨millis⟩

section Readers

variable {S : Type} (parseAddr : List Char → Option S) (lookup : Lookup)

/-- Reads `PULSESTREAM_API_BIND`, defaulting to `DEFAULT_API_BIND`. -/
def apiBind : Except ConfigError S :=
  let raw := (lookup apiBindVar).getD defaultApiBind
  match parseAddr (trim raw) with
  | some addr => .ok addr
  | none => .error (.invalidBindAddress apiBindVar raw)

def boundedInteger (var : String) (default : ℕ) (range : RangeInclusive) : Except ConfigError ℕ :=
  match lookup var with
  | none => .ok default
  | some raw =>
    match (parseU64 (trim raw)).filter fun value => range.contains value with
    | some value => .ok value
    | none => .error (.outOfRange var raw range.first range.last)

def millis (var : String) (default : ℕ) (range : RangeInclusive) : Except ConfigError Duration :=
  (boundedInteger lookup var default range).map Duration.fromMillis

def boolean (var : String) (default : Bool) : Except ConfigError Bool :=
  match (lookup var).map trim with
  | none => .ok default
  | some other =>
    if other = "true".toList then .ok true
    else if other = "false".toList then .ok false
    else .error (.invalidBool var (String.ofList other))

end Readers

/-- PostgreSQL connection settings shared by the API and worker. -/
structure DatabaseConfig where
  url : DatabaseUrl
  maxConnections : ℕ
  acquireTimeout : Duration
  migrateOnStart : Bool
  deriving DecidableEq

/-- `Option::ok_or`. -/
def okOr {ε α : Type} (x : Option α) (e : ε) : Except ε α :=
  match x with
  | some a => .ok a
  | none => .error e

/-- `as u32` wraps around. -/
def DatabaseConfig.fromLookup (lookup : Lookup) : Except ConfigError DatabaseConfig := do
  let raw ← okOr (lookup databaseUrlVar) (.missing databaseUrlVar)
  let url ← DatabaseUrl.parse raw
  let maxConnections ←
    boundedInteger lookup dbMaxConnectionsVar defaultDbMaxConnections dbMaxConnectionsRange
  let acquireTimeout ←
    millis lookup dbAcquireTimeoutMsVar defaultDbAcquireTimeoutMs dbAcquireTimeoutMsRange
  let migrateOnStart ← boolean lookup migrateOnStartVar true
  return ⟨url, maxConnections % 2 ^ 32, acquireTimeout, migrateOnStart⟩

/-- Limits and timings of the worker's claim/process loop. -/
structure WorkerRuntimeConfig where
  concurrency : ℕ
  pollInterval : Duration
  lease : Duration
  shutdownTimeout : Duration
  deriving DecidableEq

/-- `as usize` wraps around, at 32 bits on the smallest target. -/
def WorkerRuntimeConfig.fromLookup (lookup : Lookup) : Except ConfigError WorkerRuntimeConfig := do
  let concurrency ←
    boundedInteger lookup workerConcurrencyVar defaultWorkerConcurrency workerConcurrencyRange
  let pollInterval ← millis lookup pollIntervalMsVar defaultPollIntervalMs pollIntervalMsRange
  let lease ← millis lookup processingLeaseMsVar defaultProcessingLeaseMs processingLeaseMsRange
  let shutdownTimeout ←
    millis lookup shutdownTimeoutMsVar defaultShutdownTimeoutMs shutdownTimeoutMsRange
  return ⟨concurrency % 2 ^ 32, pollInterval, lease, shutdownTimeout⟩

/-- Configuration for the `pulsestream-api` process. -/
structure ApiConfig (S : Type) where
  bind : S
  database : DatabaseConfig
  deriving DecidableEq

def ApiConfig.fromLookup {S : Type} (parseAddr : List Char → Option S) (lookup : Lookup) :
    Except ConfigError (ApiConfig S) := do
  let bind ← apiBind parseAddr lookup
  let database ← DatabaseConfig.fromLookup lookup
  return ⟨bind, database⟩

/-- Configuration for the `pulsestream-worker` process. -/
structure WorkerConfig where
  database : DatabaseConfig
  runtime : WorkerRuntimeConfig
  deriving DecidableEq

def WorkerConfig.fromLookup (lookup : Lookup) : Except ConfigError WorkerConfig := do
  let database ← DatabaseConfig.fromLookup lookup
  let runtime ← WorkerRuntimeConfig.fromLookup lookup
  return ⟨database, runtime⟩

/-! ## The environment -/

/-- A process environment: variable names to arbitrary bytes. -/
abbrev Env := String → Option ByteArray

inductive VarError where
  | notPresent
  | notUnicode (bytes : ByteArray)

/-- `std::env::var`. -/
def var (env : Env) (key : String) : Except VarError String :=
  match env key with
  | none => .error .notPresent
  | some bytes =>
    match String.fromUTF8? bytes with
    | some text => .ok text
    | none => .error (.notUnicode bytes)

/-- `|key| std::env::var(key).ok()`. -/
def Env.lookup (env : Env) : Lookup := fun key => (var env key).toOption

def ApiConfig.fromEnv {S : Type} (parseAddr : List Char → Option S) (env : Env) :
    Except ConfigError (ApiConfig S) :=
  ApiConfig.fromLookup parseAddr env.lookup

def WorkerConfig.fromEnv (env : Env) : Except ConfigError WorkerConfig :=
  WorkerConfig.fromLookup env.lookup

/-! ## What the readers accept -/

theorem bind_eq_ok {ε α β : Type} {x : Except ε α} {f : α → Except ε β} {b : β} :
    (x >>= f) = .ok b ↔ ∃ a, x = .ok a ∧ f a = .ok b := by
  cases x with
  | error e =>
    constructor
    · intro h
      cases h
    · rintro ⟨a, h, -⟩
      cases h
  | ok a =>
    constructor
    · exact fun h => ⟨a, rfl, h⟩
    · rintro ⟨a', h, h'⟩
      cases h
      exact h'

theorem bind_eq_error {ε α β : Type} {x : Except ε α} {f : α → Except ε β} {e : ε}
    (h : (x >>= f) = .error e) : x = .error e ∨ ∃ a, x = .ok a ∧ f a = .error e := by
  cases x with
  | error e' =>
    cases h
    exact .inl rfl
  | ok a => exact .inr ⟨a, rfl, h⟩

theorem map_eq_ok {ε α β : Type} {x : Except ε α} {f : α → β} {b : β} :
    x.map f = .ok b ↔ ∃ a, x = .ok a ∧ f a = b := by
  cases x <;> simp [Except.map]

theorem mapError_eq_ok {ε ε' α : Type} {x : Except ε α} {f : ε → ε'} {a : α} :
    x.mapError f = .ok a ↔ x = .ok a := by
  cases x <;> simp [Except.mapError]

theorem okOr_eq_ok {ε α : Type} {x : Option α} {e : ε} {a : α} :
    okOr x e = .ok a ↔ x = some a := by
  cases x <;> simp [okOr]

theorem digit_eq_some {c : Char} {d : ℕ} :
    digit c = some d ↔ c.isDigit = true ∧ c.toNat - '0'.toNat = d := by
  unfold digit
  split_ifs with h <;> simp [h]

theorem le_foldl_decimal (digits : List Char) (value : ℕ) :
    value ≤ digits.foldl (fun value c => value * 10 + (c.toNat - '0'.toNat)) value := by
  induction digits generalizing value with
  | nil => exact le_refl _
  | cons c digits ih =>
    have hnext := ih (value * 10 + (c.toNat - '0'.toNat))
    rw [List.foldl_cons]
    omega

theorem foldlM_digits {digits : List Char} {value n : ℕ} (hvalue : value < 2 ^ 64) :
    digits.foldlM (fun value c => do
        let d ← digit c
        if value * 10 + d < 2 ^ 64 then some (value * 10 + d) else none) value = some n ↔
      (∀ c ∈ digits, c.isDigit = true) ∧
        digits.foldl (fun value c => value * 10 + (c.toNat - '0'.toNat)) value = n ∧
        n < 2 ^ 64 := by
  induction digits generalizing value with
  | nil =>
    simp only [List.foldlM_nil, List.foldl_nil, List.not_mem_nil, false_implies, implies_true,
      true_and]
    constructor
    · intro h
      cases h
      exact ⟨rfl, hvalue⟩
    · rintro ⟨rfl, -⟩
      rfl
  | cons c digits ih =>
    rw [List.foldlM_cons, List.foldl_cons, List.forall_mem_cons]
    cases hd : digit c with
    | none =>
      have hc : ¬ c.isDigit = true := fun hc => by simp [digit, hc] at hd
      simp [hc]
    | some d =>
      obtain ⟨hc, rfl⟩ := digit_eq_some.mp hd
      simp only [Option.bind_eq_bind, Option.bind_some, hc, true_and]
      split_ifs with hfits
      · rw [Option.bind_some]
        exact ih hfits
      · rw [Option.bind_none]
        have hle := le_foldl_decimal digits (value * 10 + (c.toNat - '0'.toNat))
        constructor
        · intro h
          cases h
        · rintro ⟨-, hn, hlt⟩
          omega

/-- `u64::from_str` reads decimal notation below `2 ^ 64`. -/
theorem parseU64_eq_some {text : List Char} {n : ℕ} :
    parseU64 text = some n ↔ Decimal text n ∧ n < 2 ^ 64 := by
  have hloop : ∀ digits : List Char, (if digits.isEmpty then none else
      digits.foldlM (fun value c => do
        let d ← digit c
        if value * 10 + d < 2 ^ 64 then some (value * 10 + d) else none) 0) = some n ↔
      (digits ≠ [] ∧ (∀ c ∈ digits, c.isDigit = true) ∧ n = decimal digits) ∧ n < 2 ^ 64 := by
    intro digits
    cases digits with
    | nil => simp
    | cons c digits =>
      rw [if_neg (by simp), foldlM_digits (by decide)]
      unfold decimal
      constructor
      · rintro ⟨hall, rfl, hlt⟩
        exact ⟨⟨by simp, hall, rfl⟩, hlt⟩
      · rintro ⟨⟨-, hall, rfl⟩, hlt⟩
        exact ⟨hall, rfl, hlt⟩
  unfold parseU64 Decimal
  split
  · rename_i rest
    rw [hloop]
    refine and_congr_left fun _ => ⟨fun h => ⟨rest, .inr rfl, h⟩, ?_⟩
    rintro ⟨digits, rfl | hdigits, hne, hall, hn⟩
    · exact absurd (hall '+' List.mem_cons_self) (by decide)
    · obtain rfl := List.tail_eq_of_cons_eq hdigits
      exact ⟨hne, hall, hn⟩
  · rename_i hplus
    rw [hloop]
    refine and_congr_left fun _ => ⟨fun h => ⟨text, .inl rfl, h⟩, ?_⟩
    rintro ⟨digits, rfl | hdigits, h⟩
    · exact h
    · exact absurd hdigits (hplus digits)

theorem DatabaseUrl.parse_eq_ok {value : String} {u : DatabaseUrl} :
    parse value = .ok u ↔ u.value = trim value := by
  unfold parse
  constructor
  · intro h
    split at h
    · cases h
      rfl
    · cases h
  · intro h
    obtain ⟨_, hvalid⟩ := u
    subst h
    split
    · rfl
    · rename_i e he
      rw [hvalid] at he
      cases he

theorem DatabaseUrl.value_eq (u : DatabaseUrl) :
    ∃ scheme rest, (scheme = "postgres".toList ∨ scheme = "postgresql".toList) ∧
      u.value = scheme ++ "://".toList ++ rest ∧ u.authority = authorityOf rest := by
  have hvalid := u.valid
  unfold validateUrl at hvalid
  split_ifs at hvalid
  cases hrest : afterScheme u.value with
  | none =>
    rw [hrest] at hvalid
    cases hvalid
  | some rest =>
    have hauthority : u.authority = authorityOf rest := by
      unfold authority
      rw [hrest, Option.getD_some]
    unfold afterScheme at hrest
    rcases Option.or_eq_some_iff.mp hrest with h | ⟨-, h⟩
    · obtain ⟨start, hvalue, hstart⟩ := List.dropPrefix?_eq_some_iff.mp h
      rw [eq_of_beq hstart] at hvalue
      exact ⟨"postgres".toList, rest, .inl rfl, hvalue, hauthority⟩
    · obtain ⟨start, hvalue, hstart⟩ := List.dropPrefix?_eq_some_iff.mp h
      rw [eq_of_beq hstart] at hvalue
      exact ⟨"postgresql".toList, rest, .inr rfl, hvalue, hauthority⟩

section Readers

variable {S : Type} {parseAddr : List Char → Option S} {lookup : Lookup} {name : String}

theorem boundedInteger_eq_ok {default n : ℕ} {range : RangeInclusive}
    (hrange : range.last < 2 ^ 64) :
    boundedInteger lookup name default range = .ok n ↔
      (lookup name = none ∧ n = default) ∨
        ∃ raw, lookup name = some raw ∧ Decimal (trim raw) n ∧ range.contains n := by
  unfold boundedInteger
  cases hraw : lookup name with
  | none => simp [eq_comm]
  | some raw =>
    have hread : ∀ value, ((parseU64 (trim raw)).filter fun value => range.contains value) =
        some value ↔ Decimal (trim raw) value ∧ range.contains value := by
      intro value
      rw [Option.filter_eq_some_iff, parseU64_eq_some, decide_eq_true_iff, and_assoc]
      refine and_congr_right fun _ => and_iff_right_of_imp fun hin => ?_
      exact hin.2.trans_lt hrange
    simp only [reduceCtorEq, false_and, Option.some.injEq, exists_eq_left', false_or]
    rw [← hread]
    split <;> rename_i h <;> simp [h]

theorem boolean_eq_ok {default b : Bool} :
    boolean lookup name default = .ok b ↔
      (lookup name = none ∧ b = default) ∨
        ∃ raw, lookup name = some raw ∧ trim raw = (if b then "true" else "false").toList := by
  unfold boolean
  cases lookup name with
  | none => simp [eq_comm]
  | some raw =>
    simp only [Option.map_some, reduceCtorEq, false_and, Option.some.injEq, exists_eq_left',
      false_or]
    generalize trim raw = text
    by_cases htrue : text = "true".toList
    · subst htrue
      rw [if_pos rfl]
      cases b <;> decide
    · by_cases hfalse : text = "false".toList
      · subst hfalse
        rw [if_neg htrue, if_pos rfl]
        cases b <;> decide
      · rw [if_neg htrue, if_neg hfalse]
        refine ⟨fun h => (by cases h), fun h => ?_⟩
        cases b with
        | true => exact absurd h htrue
        | false => exact absurd h hfalse

theorem apiBind_eq_ok {addr : S} :
    apiBind parseAddr lookup = .ok addr ↔
      parseAddr (trim ((lookup apiBindVar).getD defaultApiBind)) = some addr := by
  unfold apiBind
  dsimp only
  split <;> rename_i h <;> simp [h]

theorem boundedInteger_ne_missing {default : ℕ} {range : RangeInclusive} (v : String) :
    boundedInteger lookup name default range ≠ .error (.missing v) := by
  unfold boundedInteger
  split
  · simp
  · split <;> simp

theorem millis_ne_missing {default : ℕ} {range : RangeInclusive} (v : String) :
    millis lookup name default range ≠ .error (.missing v) := by
  unfold millis
  cases h : boundedInteger lookup name default range with
  | error e =>
    intro he
    cases he
    exact boundedInteger_ne_missing v h
  | ok n => simp [Except.map]

theorem boolean_ne_missing {default : Bool} (v : String) :
    boolean lookup name default ≠ .error (.missing v) := by
  unfold boolean
  split
  · simp
  · split_ifs <;> simp

theorem apiBind_ne_missing (v : String) : apiBind parseAddr lookup ≠ .error (.missing v) := by
  unfold apiBind
  dsimp only
  split <;> simp

theorem DatabaseUrl.parse_ne_missing (value v : String) : parse value ≠ .error (.missing v) := by
  unfold parse validateUrl
  intro h
  split at h
  · cases h
  · rename_i e he
    split_ifs at he
    · cases he
      cases h
    · split at he
      · cases he
        cases h
      · split_ifs at he
        cases he
        cases h

end Readers

/-! ## Variables and fields -/

/-- The variables that the two processes read. -/
inductive Variable where
  | apiBind
  | databaseUrl
  | dbMaxConnections
  | dbAcquireTimeoutMs
  | migrateOnStart
  | workerConcurrency
  | pollIntervalMs
  | processingLeaseMs
  | shutdownTimeoutMs
  deriving DecidableEq

def Variable.name : Variable → String
  | apiBind => apiBindVar
  | databaseUrl => databaseUrlVar
  | dbMaxConnections => dbMaxConnectionsVar
  | dbAcquireTimeoutMs => dbAcquireTimeoutMsVar
  | migrateOnStart => migrateOnStartVar
  | workerConcurrency => workerConcurrencyVar
  | pollIntervalMs => pollIntervalMsVar
  | processingLeaseMs => processingLeaseMsVar
  | shutdownTimeoutMs => shutdownTimeoutMsVar

/-- The value of a field of a configuration. -/
inductive Field (S : Type) where
  | address (addr : S)
  | url (url : DatabaseUrl)
  | integer (n : ℕ)
  | duration (d : Duration)
  | flag (b : Bool)

/-- The documented meaning of a variable: the text denotes the value. -/
def Variable.Denotes {S : Type} (parseAddr : List Char → Option S) (text : List Char) :
    Variable → Field S → Prop
  | apiBind, .address addr => parseAddr text = some addr
  | databaseUrl, .url url => url.value = text
  | dbMaxConnections, .integer n => Decimal text n ∧ dbMaxConnectionsRange.contains n
  | dbAcquireTimeoutMs, .duration d =>
    Decimal text d.millis ∧ dbAcquireTimeoutMsRange.contains d.millis
  | migrateOnStart, .flag b => text = (if b then "true" else "false").toList
  | workerConcurrency, .integer n => Decimal text n ∧ workerConcurrencyRange.contains n
  | pollIntervalMs, .duration d => Decimal text d.millis ∧ pollIntervalMsRange.contains d.millis
  | processingLeaseMs, .duration d =>
    Decimal text d.millis ∧ processingLeaseMsRange.contains d.millis
  | shutdownTimeoutMs, .duration d =>
    Decimal text d.millis ∧ shutdownTimeoutMsRange.contains d.millis
  | _, _ => False

/-- The default, in the notation of the variable; `DATABASE_URL` has none. -/
def Variable.defaultText : Variable → Option String
  | apiBind => some defaultApiBind
  | databaseUrl => none
  | dbMaxConnections => some "10"
  | dbAcquireTimeoutMs => some "3000"
  | migrateOnStart => some "true"
  | workerConcurrency => some "4"
  | pollIntervalMs => some "250"
  | processingLeaseMs => some "30000"
  | shutdownTimeoutMs => some "10000"

/-- The field of the database settings that a variable sets. -/
def DatabaseConfig.field (S : Type) (config : DatabaseConfig) : Variable → Option (Field S)
  | .databaseUrl => some (.url config.url)
  | .dbMaxConnections => some (.integer config.maxConnections)
  | .dbAcquireTimeoutMs => some (.duration config.acquireTimeout)
  | .migrateOnStart => some (.flag config.migrateOnStart)
  | _ => none

def WorkerRuntimeConfig.field (S : Type) (config : WorkerRuntimeConfig) :
    Variable → Option (Field S)
  | .workerConcurrency => some (.integer config.concurrency)
  | .pollIntervalMs => some (.duration config.pollInterval)
  | .processingLeaseMs => some (.duration config.lease)
  | .shutdownTimeoutMs => some (.duration config.shutdownTimeout)
  | _ => none

def ApiConfig.field {S : Type} (config : ApiConfig S) : Variable → Option (Field S)
  | .apiBind => some (.address config.bind)
  | v => config.database.field S v

def WorkerConfig.field (S : Type) (config : WorkerConfig) (v : Variable) : Option (Field S) :=
  (config.database.field S v).or (config.runtime.field S v)

def Variable.readByApi (v : Variable) : Prop :=
  v ∈ [apiBind, databaseUrl, dbMaxConnections, dbAcquireTimeoutMs, migrateOnStart]

def Variable.readByWorker (v : Variable) : Prop :=
  v ∈ [databaseUrl, dbMaxConnections, dbAcquireTimeoutMs, migrateOnStart, workerConcurrency,
    pollIntervalMs, processingLeaseMs, shutdownTimeoutMs]

/-! ## `from_lookup` -/

section FromLookup

variable {S : Type} {parseAddr : List Char → Option S} {lookup : Lookup}

/-- The field has the value that the variable denotes, or its default if it is unset. -/
def Lookup.Reads (parseAddr : List Char → Option S) (lookup : Lookup) (v : Variable)
    (field : Field S) : Prop :=
  ∃ text, (lookup v.name).or v.defaultText = some text ∧ v.Denotes parseAddr (trim text) field

/-- The variable has a text that denotes no value. -/
def Lookup.Malformed (parseAddr : List Char → Option S) (lookup : Lookup) (v : Variable) : Prop :=
  ∃ text, lookup v.name = some text ∧ ∀ f, ¬ v.Denotes parseAddr (trim text) f

theorem Lookup.Reads.not_malformed {v : Variable} {f : Field S} (h : lookup.Reads parseAddr v f) :
    ¬ lookup.Malformed parseAddr v := by
  rintro ⟨text, htext, hnone⟩
  obtain ⟨raw, hraw, hdenotes⟩ := h
  rw [htext, Option.some_or] at hraw
  exact hnone f (Option.some.inj hraw ▸ hdenotes)

theorem Lookup.denoted {v : Variable} (h : ¬ lookup.Malformed parseAddr v) {text : String}
    (htext : lookup v.name = some text) : ∃ f, v.Denotes parseAddr (trim text) f := by
  by_contra hnone
  exact h ⟨text, htext, fun f hf => hnone ⟨f, hf⟩⟩

theorem decimal_of_parseU64 {text : String} {n : ℕ} (h : parseU64 (trim text) = some n) :
    Decimal (trim text) n := (parseU64_eq_some.mp h).1

/-- An integer is read, given that its default passes the check of its own variable. -/
theorem boundedInteger_reads {name : String} {default n : ℕ} {range : RangeInclusive}
    (text : String) (h : boundedInteger lookup name default range = .ok n)
    (hrange : range.last < 2 ^ 64) (hdefault : parseU64 (trim text) = some default)
    (hin : range.contains default) :
    ∃ raw, (lookup name).or (some text) = some raw ∧ Decimal (trim raw) n ∧ range.contains n := by
  rcases (boundedInteger_eq_ok hrange).mp h with ⟨hunset, rfl⟩ | ⟨raw, hraw, hread⟩
  · exact ⟨text, by rw [hunset]; rfl, decimal_of_parseU64 hdefault, hin⟩
  · exact ⟨raw, by rw [hraw]; rfl, hread⟩

theorem millis_reads {name : String} {default : ℕ} {range : RangeInclusive} {d : Duration}
    (text : String) (h : millis lookup name default range = .ok d) (hrange : range.last < 2 ^ 64)
    (hdefault : parseU64 (trim text) = some default) (hin : range.contains default) :
    ∃ raw, (lookup name).or (some text) = some raw ∧ Decimal (trim raw) d.millis ∧
      range.contains d.millis := by
  obtain ⟨n, hn, rfl⟩ := map_eq_ok.mp h
  exact boundedInteger_reads text hn hrange hdefault hin

theorem boundedInteger_ok {v : Variable} {default : ℕ} {range : RangeInclusive}
    (hrange : range.last < 2 ^ 64)
    (hv : ∀ text f, v.Denotes parseAddr text f → ∃ n, Decimal text n ∧ range.contains n)
    (h : ¬ lookup.Malformed parseAddr v) :
    ∃ n, boundedInteger lookup v.name default range = .ok n := by
  cases hset : lookup v.name with
  | none => exact ⟨default, (boundedInteger_eq_ok hrange).mpr (.inl ⟨hset, rfl⟩)⟩
  | some text =>
    obtain ⟨f, hf⟩ := Lookup.denoted h hset
    obtain ⟨n, hn⟩ := hv _ f hf
    exact ⟨n, (boundedInteger_eq_ok hrange).mpr (.inr ⟨text, hset, hn⟩)⟩

theorem millis_ok {v : Variable} {default : ℕ} {range : RangeInclusive}
    (hrange : range.last < 2 ^ 64)
    (hv : ∀ text f, v.Denotes parseAddr text f → ∃ n, Decimal text n ∧ range.contains n)
    (h : ¬ lookup.Malformed parseAddr v) :
    ∃ d, millis lookup v.name default range = .ok d := by
  obtain ⟨n, hn⟩ := boundedInteger_ok hrange hv h
  exact ⟨.fromMillis n, map_eq_ok.mpr ⟨n, hn, rfl⟩⟩

theorem boolean_ok {default : Bool} (h : ¬ lookup.Malformed parseAddr .migrateOnStart) :
    ∃ b, boolean lookup migrateOnStartVar default = .ok b := by
  cases hset : lookup migrateOnStartVar with
  | none => exact ⟨default, boolean_eq_ok.mpr (.inl ⟨hset, rfl⟩)⟩
  | some text =>
    obtain ⟨f, hf⟩ := Lookup.denoted h hset
    cases f with
    | flag b => exact ⟨b, boolean_eq_ok.mpr (.inr ⟨text, hset, hf⟩)⟩
    | _ => cases hf

theorem apiBind_ok (hdefault : ∃ addr, parseAddr (trim defaultApiBind) = some addr)
    (h : ¬ lookup.Malformed parseAddr .apiBind) : ∃ addr, apiBind parseAddr lookup = .ok addr := by
  cases hset : lookup apiBindVar with
  | none =>
    obtain ⟨addr, haddr⟩ := hdefault
    exact ⟨addr, apiBind_eq_ok.mpr (by rwa [hset])⟩
  | some text =>
    obtain ⟨f, hf⟩ := Lookup.denoted h hset
    cases f with
    | address addr => exact ⟨addr, apiBind_eq_ok.mpr (by rwa [hset])⟩
    | _ => cases hf

theorem DatabaseUrl.parse_ok {raw : String} (hraw : lookup databaseUrlVar = some raw)
    (h : ¬ lookup.Malformed parseAddr .databaseUrl) : ∃ url, parse raw = .ok url := by
  obtain ⟨f, hf⟩ := Lookup.denoted h hraw
  cases f with
  | url url => exact ⟨url, parse_eq_ok.mpr hf⟩
  | _ => cases hf

theorem DatabaseConfig.fromLookup_reads {config : DatabaseConfig} {v : Variable} {f : Field S}
    (h : fromLookup lookup = .ok config) (hf : config.field S v = some f) :
    lookup.Reads parseAddr v f := by
  unfold fromLookup at h
  obtain ⟨raw, hraw, h⟩ := bind_eq_ok.mp h
  obtain ⟨url, hurl, h⟩ := bind_eq_ok.mp h
  obtain ⟨maxConnections, hmax, h⟩ := bind_eq_ok.mp h
  obtain ⟨acquireTimeout, hacquire, h⟩ := bind_eq_ok.mp h
  obtain ⟨migrateOnStart, hmigrate, h⟩ := bind_eq_ok.mp h
  cases h
  cases v with
  | databaseUrl =>
    cases hf
    exact ⟨raw, by rw [Variable.name, okOr_eq_ok.mp hraw]; rfl, DatabaseUrl.parse_eq_ok.mp hurl⟩
  | dbMaxConnections =>
    cases hf
    obtain ⟨raw, hset, hdec, hin⟩ :=
      boundedInteger_reads "10" hmax (by decide) (by decide) (by decide)
    have hsmall : maxConnections % 2 ^ 32 = maxConnections := by
      have hle : maxConnections ≤ 50 := hin.2
      omega
    refine ⟨raw, hset, ?_⟩
    rw [hsmall]
    exact ⟨hdec, hin⟩
  | dbAcquireTimeoutMs =>
    cases hf
    exact millis_reads "3000" hacquire (by decide) (by decide) (by decide)
  | migrateOnStart =>
    cases hf
    rcases boolean_eq_ok.mp hmigrate with ⟨hunset, rfl⟩ | ⟨raw, hset, htext⟩
    · have htrue : trim "true" = "true".toList := by decide
      exact ⟨"true", by rw [Variable.name, hunset]; rfl, htrue⟩
    · exact ⟨raw, by rw [Variable.name, hset]; rfl, htext⟩
  | _ => cases hf

theorem DatabaseConfig.fromLookup_ok {raw : String} (hraw : lookup databaseUrlVar = some raw)
    (h : ∀ v ∈ [Variable.databaseUrl, .dbMaxConnections, .dbAcquireTimeoutMs, .migrateOnStart],
      ¬ lookup.Malformed parseAddr v) : ∃ config, fromLookup lookup = .ok config := by
  obtain ⟨url, hurl⟩ := DatabaseUrl.parse_ok hraw (h _ (by simp))
  obtain ⟨maxConnections, hmax⟩ : ∃ n, boundedInteger lookup dbMaxConnectionsVar
      defaultDbMaxConnections dbMaxConnectionsRange = .ok n :=
    boundedInteger_ok (v := .dbMaxConnections) (by decide)
      (fun text f hf => by cases f <;> first | exact ⟨_, hf⟩ | cases hf) (h _ (by simp))
  obtain ⟨acquireTimeout, hacquire⟩ : ∃ d, millis lookup dbAcquireTimeoutMsVar
      defaultDbAcquireTimeoutMs dbAcquireTimeoutMsRange = .ok d :=
    millis_ok (v := .dbAcquireTimeoutMs) (by decide)
      (fun text f hf => by cases f <;> first | exact ⟨_, hf⟩ | cases hf) (h _ (by simp))
  obtain ⟨migrateOnStart, hmigrate⟩ := boolean_ok (h _ (by simp))
  exact ⟨_, bind_eq_ok.mpr ⟨raw, okOr_eq_ok.mpr hraw, bind_eq_ok.mpr ⟨url, hurl,
    bind_eq_ok.mpr ⟨maxConnections, hmax, bind_eq_ok.mpr ⟨acquireTimeout, hacquire,
    bind_eq_ok.mpr ⟨migrateOnStart, hmigrate, rfl⟩⟩⟩⟩⟩⟩

theorem DatabaseConfig.fromLookup_of_none (hnone : lookup databaseUrlVar = none) :
    fromLookup lookup = .error (.missing databaseUrlVar) := by
  unfold fromLookup
  rw [hnone]
  rfl

theorem DatabaseConfig.fromLookup_missing {name : String}
    (h : fromLookup lookup = .error (.missing name)) :
    name = databaseUrlVar ∧ lookup databaseUrlVar = none := by
  unfold fromLookup at h
  rcases bind_eq_error h with hraw | ⟨raw, -, h⟩
  · cases hset : lookup databaseUrlVar with
    | none =>
      rw [hset] at hraw
      cases hraw
      exact ⟨rfl, rfl⟩
    | some raw =>
      rw [hset] at hraw
      cases hraw
  · rcases bind_eq_error h with h | ⟨url, -, h⟩
    · exact absurd h (DatabaseUrl.parse_ne_missing _ _)
    rcases bind_eq_error h with h | ⟨maxConnections, -, h⟩
    · exact absurd h (boundedInteger_ne_missing _)
    rcases bind_eq_error h with h | ⟨acquireTimeout, -, h⟩
    · exact absurd h (millis_ne_missing _)
    rcases bind_eq_error h with h | ⟨migrateOnStart, -, h⟩
    · exact absurd h (boolean_ne_missing _)
    cases h

theorem WorkerRuntimeConfig.fromLookup_reads {config : WorkerRuntimeConfig} {v : Variable}
    {f : Field S} (h : fromLookup lookup = .ok config) (hf : config.field S v = some f) :
    lookup.Reads parseAddr v f := by
  unfold fromLookup at h
  obtain ⟨concurrency, hconcurrency, h⟩ := bind_eq_ok.mp h
  obtain ⟨pollInterval, hpoll, h⟩ := bind_eq_ok.mp h
  obtain ⟨lease, hlease, h⟩ := bind_eq_ok.mp h
  obtain ⟨shutdownTimeout, hshutdown, h⟩ := bind_eq_ok.mp h
  cases h
  cases v with
  | workerConcurrency =>
    cases hf
    obtain ⟨raw, hset, hdec, hin⟩ :=
      boundedInteger_reads "4" hconcurrency (by decide) (by decide) (by decide)
    have hsmall : concurrency % 2 ^ 32 = concurrency := by
      have hle : concurrency ≤ 64 := hin.2
      omega
    refine ⟨raw, hset, ?_⟩
    rw [hsmall]
    exact ⟨hdec, hin⟩
  | pollIntervalMs =>
    cases hf
    exact millis_reads "250" hpoll (by decide) (by decide) (by decide)
  | processingLeaseMs =>
    cases hf
    exact millis_reads "30000" hlease (by decide) (by decide) (by decide)
  | shutdownTimeoutMs =>
    cases hf
    exact millis_reads "10000" hshutdown (by decide) (by decide) (by decide)
  | _ => cases hf

theorem WorkerRuntimeConfig.fromLookup_ok
    (h : ∀ v ∈ [Variable.workerConcurrency, .pollIntervalMs, .processingLeaseMs,
      .shutdownTimeoutMs], ¬ lookup.Malformed parseAddr v) :
    ∃ config, fromLookup lookup = .ok config := by
  obtain ⟨concurrency, hconcurrency⟩ : ∃ n, boundedInteger lookup workerConcurrencyVar
      defaultWorkerConcurrency workerConcurrencyRange = .ok n :=
    boundedInteger_ok (v := .workerConcurrency) (by decide)
      (fun text f hf => by cases f <;> first | exact ⟨_, hf⟩ | cases hf) (h _ (by simp))
  obtain ⟨pollInterval, hpoll⟩ : ∃ d, millis lookup pollIntervalMsVar defaultPollIntervalMs
      pollIntervalMsRange = .ok d :=
    millis_ok (v := .pollIntervalMs) (by decide)
      (fun text f hf => by cases f <;> first | exact ⟨_, hf⟩ | cases hf) (h _ (by simp))
  obtain ⟨lease, hlease⟩ : ∃ d, millis lookup processingLeaseMsVar defaultProcessingLeaseMs
      processingLeaseMsRange = .ok d :=
    millis_ok (v := .processingLeaseMs) (by decide)
      (fun text f hf => by cases f <;> first | exact ⟨_, hf⟩ | cases hf) (h _ (by simp))
  obtain ⟨shutdownTimeout, hshutdown⟩ : ∃ d, millis lookup shutdownTimeoutMsVar
      defaultShutdownTimeoutMs shutdownTimeoutMsRange = .ok d :=
    millis_ok (v := .shutdownTimeoutMs) (by decide)
      (fun text f hf => by cases f <;> first | exact ⟨_, hf⟩ | cases hf) (h _ (by simp))
  exact ⟨_, bind_eq_ok.mpr ⟨concurrency, hconcurrency, bind_eq_ok.mpr ⟨pollInterval, hpoll,
    bind_eq_ok.mpr ⟨lease, hlease, bind_eq_ok.mpr ⟨shutdownTimeout, hshutdown, rfl⟩⟩⟩⟩⟩

theorem WorkerRuntimeConfig.fromLookup_ne_missing (name : String) :
    fromLookup lookup ≠ .error (.missing name) := by
  intro h
  unfold fromLookup at h
  rcases bind_eq_error h with h | ⟨concurrency, -, h⟩
  · exact absurd h (boundedInteger_ne_missing _)
  rcases bind_eq_error h with h | ⟨pollInterval, -, h⟩
  · exact absurd h (millis_ne_missing _)
  rcases bind_eq_error h with h | ⟨lease, -, h⟩
  · exact absurd h (millis_ne_missing _)
  rcases bind_eq_error h with h | ⟨shutdownTimeout, -, h⟩
  · exact absurd h (millis_ne_missing _)
  cases h

theorem ApiConfig.fromLookup_reads {config : ApiConfig S} {v : Variable}
    (h : fromLookup parseAddr lookup = .ok config) (hv : v.readByApi) :
    ∃ f, config.field v = some f ∧ lookup.Reads parseAddr v f := by
  obtain ⟨bind, hbind, h⟩ := bind_eq_ok.mp h
  obtain ⟨database, hdatabase, h⟩ := bind_eq_ok.mp h
  cases h
  cases v with
  | apiBind =>
    refine ⟨_, rfl, (lookup apiBindVar).getD defaultApiBind, ?_, apiBind_eq_ok.mp hbind⟩
    cases hset : lookup apiBindVar <;> simp [Variable.name, Variable.defaultText, hset]
  | databaseUrl | dbMaxConnections | dbAcquireTimeoutMs | migrateOnStart =>
    exact ⟨_, rfl, DatabaseConfig.fromLookup_reads hdatabase rfl⟩
  | _ => exact absurd hv (by unfold Variable.readByApi; decide)

theorem ApiConfig.fromLookup_missing {name : String}
    (h : fromLookup parseAddr lookup = .error (.missing name)) :
    name = databaseUrlVar ∧ lookup databaseUrlVar = none := by
  rcases bind_eq_error h with h | ⟨bind, -, h⟩
  · exact absurd h (apiBind_ne_missing _)
  rcases bind_eq_error h with h | ⟨database, -, h⟩
  · exact DatabaseConfig.fromLookup_missing h
  cases h

theorem ApiConfig.fromLookup_ok (hdefault : ∃ addr, parseAddr (trim defaultApiBind) = some addr)
    {raw : String} (hraw : lookup databaseUrlVar = some raw)
    (h : ∀ v : Variable, v.readByApi → ¬ lookup.Malformed parseAddr v) :
    ∃ config, fromLookup parseAddr lookup = .ok config := by
  obtain ⟨bind, hbind⟩ := apiBind_ok hdefault (h .apiBind (by simp [Variable.readByApi]))
  obtain ⟨database, hdatabase⟩ := DatabaseConfig.fromLookup_ok hraw fun v hv =>
    h v (by simp only [Variable.readByApi, List.mem_cons] at hv ⊢; exact .inr hv)
  exact ⟨_, bind_eq_ok.mpr ⟨bind, hbind, bind_eq_ok.mpr ⟨database, hdatabase, rfl⟩⟩⟩

theorem ApiConfig.fromLookup_bind (hdefault : ∃ addr, parseAddr (trim defaultApiBind) = some addr)
    (hnone : lookup databaseUrlVar = none) :
    (∃ e, fromLookup parseAddr lookup = .error e ∧ e ≠ .missing databaseUrlVar) ↔
      lookup.Malformed parseAddr .apiBind := by
  constructor
  · rintro ⟨e, he, hother⟩
    by_contra hbind
    obtain ⟨bind, hbind⟩ := apiBind_ok hdefault hbind
    rcases bind_eq_error he with h | ⟨addr, -, h⟩
    · rw [hbind] at h
      cases h
    · rw [DatabaseConfig.fromLookup_of_none hnone] at h
      cases h
      exact hother rfl
  · rintro ⟨text, htext, hnot⟩
    have hparse : parseAddr (trim text) = none := by
      cases haddr : parseAddr (trim text) with
      | none => rfl
      | some addr => exact absurd haddr (hnot (.address addr))
    have hbind : apiBind parseAddr lookup = .error (.invalidBindAddress apiBindVar text) := by
      have hset : lookup apiBindVar = some text := htext
      simp [apiBind, hset, hparse]
    refine ⟨.invalidBindAddress apiBindVar text, ?_, by simp⟩
    rw [fromLookup, hbind]
    rfl

theorem WorkerConfig.fromLookup_reads {config : WorkerConfig} {v : Variable}
    (h : fromLookup lookup = .ok config) (hv : v.readByWorker) :
    ∃ f, config.field S v = some f ∧ lookup.Reads parseAddr v f := by
  obtain ⟨database, hdatabase, h⟩ := bind_eq_ok.mp h
  obtain ⟨runtime, hruntime, h⟩ := bind_eq_ok.mp h
  cases h
  cases v with
  | apiBind => exact absurd hv (by unfold Variable.readByWorker; decide)
  | databaseUrl | dbMaxConnections | dbAcquireTimeoutMs | migrateOnStart =>
    exact ⟨_, rfl, DatabaseConfig.fromLookup_reads hdatabase rfl⟩
  | workerConcurrency | pollIntervalMs | processingLeaseMs | shutdownTimeoutMs =>
    exact ⟨_, rfl, WorkerRuntimeConfig.fromLookup_reads hruntime rfl⟩

theorem WorkerConfig.fromLookup_missing {name : String}
    (h : fromLookup lookup = .error (.missing name)) :
    name = databaseUrlVar ∧ lookup databaseUrlVar = none := by
  rcases bind_eq_error h with h | ⟨database, -, h⟩
  · exact DatabaseConfig.fromLookup_missing h
  rcases bind_eq_error h with h | ⟨runtime, -, h⟩
  · exact absurd h (WorkerRuntimeConfig.fromLookup_ne_missing _)
  cases h

theorem WorkerConfig.fromLookup_ok {raw : String} (hraw : lookup databaseUrlVar = some raw)
    (h : ∀ v : Variable, v.readByWorker → ¬ lookup.Malformed parseAddr v) :
    ∃ config, fromLookup lookup = .ok config := by
  obtain ⟨database, hdatabase⟩ := DatabaseConfig.fromLookup_ok hraw fun v hv =>
    h v (List.mem_append_left [Variable.workerConcurrency, .pollIntervalMs, .processingLeaseMs,
      .shutdownTimeoutMs] hv)
  obtain ⟨runtime, hruntime⟩ := WorkerRuntimeConfig.fromLookup_ok fun v hv =>
    h v (List.mem_append_right [Variable.databaseUrl, .dbMaxConnections, .dbAcquireTimeoutMs,
      .migrateOnStart] hv)
  exact ⟨_, bind_eq_ok.mpr ⟨database, hdatabase, bind_eq_ok.mpr ⟨runtime, hruntime, rfl⟩⟩⟩

end FromLookup

/-! ## `from_env` -/

section FromEnv

variable {S C : Type} (parseAddr : List Char → Option S) (env : Env) (v : Variable)

/-- What is promised of a variable: if it is set, its field has the value that it denotes, or there
is an error, which is not that it is missing; if it is unset, the field has the default. -/
structure Respected (result : Except ConfigError C) (field : C → Variable → Option (Field S)) :
    Prop where
  denoted : ∀ bytes config, env v.name = some bytes → result = .ok config →
    ∃ text f, String.fromUTF8? bytes = some text ∧ field config v = some f ∧
      v.Denotes parseAddr (trim text) f
  default : ∀ config, env v.name = none → result = .ok config →
    ∃ text f, v.defaultText = some text ∧ field config v = some f ∧
      v.Denotes parseAddr (trim text) f
  missing : ∀ bytes, env v.name = some bytes → result ≠ .error (.missing v.name)

variable {parseAddr env v}

theorem Env.lookup_eq_some {key text : String} :
    env.lookup key = some text ↔
      ∃ bytes, env key = some bytes ∧ String.fromUTF8? bytes = some text := by
  unfold lookup var
  cases env key with
  | none => simp [Except.toOption]
  | some bytes => cases hutf : String.fromUTF8? bytes <;> simp [Except.toOption, hutf]

theorem fromUTF8?_isSome {bytes : ByteArray} :
    (∃ text, String.fromUTF8? bytes = some text) ↔ bytes.IsValidUTF8 := by
  unfold String.fromUTF8?
  split_ifs with h <;> simp [h]

theorem Env.lookup_eq_none {key : String} {bytes : ByteArray} (hset : env key = some bytes)
    (hvalid : ¬ bytes.IsValidUTF8) : env.lookup key = none := by
  refine Option.eq_none_iff_forall_ne_some.mpr fun text htext => ?_
  obtain ⟨b, hb, htext⟩ := Env.lookup_eq_some.mp htext
  obtain rfl := Option.some.inj (hset.symm.trans hb)
  exact hvalid (fromUTF8?_isSome.mp ⟨text, htext⟩)

/-- The promise is kept exactly for values that are Unicode, unless something else is wrong. -/
theorem respected_iff {result : Except ConfigError C} {field : C → Variable → Option (Field S)}
    (hreads : ∀ config, result = .ok config →
      ∃ f, field config v = some f ∧ env.lookup.Reads parseAddr v f)
    (hmissing : ∀ name, result = .error (.missing name) →
      name = databaseUrlVar ∧ env.lookup databaseUrlVar = none) :
    Respected parseAddr env v result field ↔
      ∀ bytes, env v.name = some bytes →
        bytes.IsValidUTF8 ∨ ∃ e, result = .error e ∧ e ≠ .missing v.name := by
  constructor
  · intro h bytes hset
    cases hresult : result with
    | ok config =>
      obtain ⟨text, f, htext, -⟩ := h.denoted bytes config hset hresult
      exact .inl (fromUTF8?_isSome.mp ⟨text, htext⟩)
    | error e =>
      refine .inr ⟨e, rfl, ?_⟩
      rintro rfl
      exact h.missing bytes hset hresult
  · intro h
    refine ⟨?_, ?_, ?_⟩
    · intro bytes config hset hresult
      rcases h bytes hset with hvalid | ⟨e, he, -⟩
      · obtain ⟨text, htext⟩ := fromUTF8?_isSome.mpr hvalid
        obtain ⟨f, hf, raw, hraw, hdenotes⟩ := hreads config hresult
        rw [Env.lookup_eq_some.mpr ⟨bytes, hset, htext⟩] at hraw
        obtain rfl := Option.some.inj hraw
        exact ⟨text, f, htext, hf, hdenotes⟩
      · rw [he] at hresult
        cases hresult
    · intro config hunset hresult
      obtain ⟨f, hf, raw, hraw, hdenotes⟩ := hreads config hresult
      have hnone : env.lookup v.name = none := by
        simp [Env.lookup, var, hunset, Except.toOption]
      rw [hnone, Option.none_or] at hraw
      exact ⟨raw, f, hraw, hf, hdenotes⟩
    · intro bytes hset hresult
      rcases h bytes hset with hvalid | ⟨e, he, hne⟩
      · obtain ⟨text, htext⟩ := fromUTF8?_isSome.mpr hvalid
        obtain ⟨hname, hnone⟩ := hmissing _ hresult
        rw [← hname, Env.lookup_eq_some.mpr ⟨bytes, hset, htext⟩] at hnone
        cases hnone
      · rw [he] at hresult
        exact hne (Except.error.inj hresult)

/-- The variable is set to a readable text that denotes no value. -/
def Env.Malformed (parseAddr : List Char → Option S) (env : Env) (v : Variable) : Prop :=
  ∃ bytes text, env v.name = some bytes ∧ String.fromUTF8? bytes = some text ∧
    ∀ f, ¬ v.Denotes parseAddr (trim text) f

/-- The variable is unset or not Unicode. -/
def Env.Unreadable (env : Env) (v : Variable) : Prop :=
  ∀ bytes, env v.name = some bytes → ¬ bytes.IsValidUTF8

theorem Env.malformed_iff : env.Malformed parseAddr v ↔ env.lookup.Malformed parseAddr v := by
  constructor
  · rintro ⟨bytes, text, hset, htext, hnone⟩
    exact ⟨text, Env.lookup_eq_some.mpr ⟨bytes, hset, htext⟩, hnone⟩
  · rintro ⟨text, htext, hnone⟩
    obtain ⟨bytes, hset, htext⟩ := Env.lookup_eq_some.mp htext
    exact ⟨bytes, text, hset, htext, hnone⟩

theorem Env.unreadable_iff : env.Unreadable v ↔ env.lookup v.name = none := by
  constructor
  · intro h
    cases hset : env v.name with
    | none => simp [Env.lookup, var, hset, Except.toOption]
    | some bytes => exact Env.lookup_eq_none hset (h bytes hset)
  · intro h bytes hset hvalid
    obtain ⟨text, htext⟩ := fromUTF8?_isSome.mpr hvalid
    rw [Env.lookup_eq_some.mpr ⟨bytes, hset, htext⟩] at h
    cases h

/-- A process fails for another reason than `v` exactly if the URL cannot be read or a variable is
malformed. -/
theorem fails_iff {result : Except ConfigError C} {reads : Variable → Prop}
    {field : C → Variable → Option (Field S)} (hurl : reads .databaseUrl)
    (hreads : ∀ config u, result = .ok config → reads u →
      ∃ f, field config u = some f ∧ env.lookup.Reads parseAddr u f)
    (hmissing : ∀ name, result = .error (.missing name) → name = databaseUrlVar)
    (hok : ∀ raw, env.lookup databaseUrlVar = some raw →
      (∀ u, reads u → ¬ env.lookup.Malformed parseAddr u) → ∃ config, result = .ok config)
    (hv : v ≠ .databaseUrl) :
    (∃ e, result = .error e ∧ e ≠ .missing v.name) ↔
      env.Unreadable .databaseUrl ∨ ∃ u, reads u ∧ env.Malformed parseAddr u := by
  constructor
  · rintro ⟨e, he, -⟩
    by_contra hfine
    obtain ⟨hreadable, hall⟩ := not_or.mp hfine
    rw [Env.unreadable_iff] at hreadable
    obtain ⟨raw, hraw⟩ := Option.ne_none_iff_exists'.mp hreadable
    obtain ⟨config, hconfig⟩ := hok raw hraw fun u hu hbad =>
      hall ⟨u, hu, Env.malformed_iff.mpr hbad⟩
    rw [he] at hconfig
    cases hconfig
  · intro hbad
    cases hresult : result with
    | error e =>
      refine ⟨e, rfl, ?_⟩
      rintro rfl
      have hname := hmissing _ hresult
      cases v with
      | databaseUrl => exact hv rfl
      | _ => exact absurd hname (by decide)
    | ok config =>
      exfalso
      rcases hbad with hnone | ⟨u, hu, hbad⟩
      · obtain ⟨f, -, text, htext, -⟩ := hreads config .databaseUrl hresult hurl
        rw [Env.unreadable_iff.mp hnone] at htext
        cases htext
      · obtain ⟨f, -, hread⟩ := hreads config u hresult hu
        exact hread.not_malformed (Env.malformed_iff.mp hbad)

/-- **Set but invalid.** Of every variable that a process reads, the promise is kept if and only if
its value is Unicode or the process fails for another reason: `DATABASE_URL` cannot be read, or some
variable is malformed. A `DATABASE_URL` that is not Unicode is reported as missing, unless the API
has found its address malformed before. -/
theorem env_respected_iff (parseAddr : List Char → Option S)
    (hdefault : ∃ addr, parseAddr (trim defaultApiBind) = some addr) (env : Env) (v : Variable) :
    (v.readByApi →
      (Respected parseAddr env v (ApiConfig.fromEnv parseAddr env) ApiConfig.field ↔
        ∀ bytes, env v.name = some bytes → bytes.IsValidUTF8 ∨
          if v = .databaseUrl then env.Malformed parseAddr .apiBind
          else env.Unreadable .databaseUrl ∨ ∃ u, u.readByApi ∧ env.Malformed parseAddr u)) ∧
    (v.readByWorker →
      (Respected parseAddr env v (WorkerConfig.fromEnv env) (WorkerConfig.field S) ↔
        ∀ bytes, env v.name = some bytes → bytes.IsValidUTF8 ∨ v ≠ .databaseUrl ∧
          (env.Unreadable .databaseUrl ∨ ∃ u, u.readByWorker ∧ env.Malformed parseAddr u))) := by
  refine ⟨fun hv => ?_, fun hv => ?_⟩
  · refine (respected_iff (fun _ h => ApiConfig.fromLookup_reads h hv)
      fun _ h => ApiConfig.fromLookup_missing h).trans (forall₂_congr fun bytes hset => ?_)
    by_cases hvalid : bytes.IsValidUTF8
    · exact iff_of_true (.inl hvalid) (.inl hvalid)
    rw [or_iff_right hvalid, or_iff_right hvalid]
    split_ifs with hurl
    · subst hurl
      rw [Env.malformed_iff]
      exact ApiConfig.fromLookup_bind hdefault (Env.lookup_eq_none hset hvalid)
    · exact fails_iff (by simp [Variable.readByApi])
        (fun _ _ h hu => ApiConfig.fromLookup_reads h hu)
        (fun _ h => (ApiConfig.fromLookup_missing h).1)
        (fun _ hraw hall => ApiConfig.fromLookup_ok hdefault hraw hall) hurl
  · refine (respected_iff (fun _ h => WorkerConfig.fromLookup_reads h hv)
      fun _ h => WorkerConfig.fromLookup_missing h).trans (forall₂_congr fun bytes hset => ?_)
    by_cases hvalid : bytes.IsValidUTF8
    · exact iff_of_true (.inl hvalid) (.inl hvalid)
    rw [or_iff_right hvalid, or_iff_right hvalid]
    by_cases hurl : v = .databaseUrl
    · subst hurl
      refine iff_of_false ?_ fun h => h.1 rfl
      rintro ⟨e, he, hother⟩
      have hnone := DatabaseConfig.fromLookup_of_none (Env.lookup_eq_none hset hvalid)
      rcases bind_eq_error he with h | ⟨database, h, -⟩
      · cases hnone.symm.trans h
        exact hother rfl
      · cases hnone.symm.trans h
    · rw [and_iff_right hurl]
      exact fails_iff (by simp [Variable.readByWorker])
        (fun _ _ h hu => WorkerConfig.fromLookup_reads h hu)
        (fun _ h => (WorkerConfig.fromLookup_missing h).1)
        (fun _ hraw hall => WorkerConfig.fromLookup_ok hraw hall) hurl

/-- `PULSESTREAM_WORKER_CONCURRENCY` is set to the bytes `6`, `4`, `0xFF`. -/
def strayByteEnv : Env := fun key =>
  if key = databaseUrlVar then some "postgres://h/db".toUTF8
  else if key = workerConcurrencyVar then some ⟨#[0x36, 0x34, 0xFF]⟩
  else none

/-- Its other variables the worker reads as promised. -/
theorem env_respected_iff_url :
    Respected (fun text => if text = defaultApiBind.toList then some () else none) strayByteEnv
      .databaseUrl (WorkerConfig.fromEnv strayByteEnv) (WorkerConfig.field Unit) := by
  refine ((env_respected_iff _ ⟨(), by decide⟩ strayByteEnv .databaseUrl).2
    (by simp [Variable.readByWorker])).mpr fun bytes hset => .inl ?_
  obtain rfl := Option.some.inj hset
  exact String.isValidUTF8 _

/-- The worker starts with the default concurrency. -/
theorem stray_byte_ignored :
    ∃ config, WorkerConfig.fromEnv strayByteEnv = .ok config ∧ config.runtime.concurrency = 4 ∧
      ¬ Respected (fun _ => none) strayByteEnv .workerConcurrency
        (WorkerConfig.fromEnv strayByteEnv) (WorkerConfig.field Unit) := by
  have hrun : (WorkerConfig.fromEnv strayByteEnv).toOption.map (·.runtime.concurrency) =
      some 4 := by decide +kernel
  cases hresult : WorkerConfig.fromEnv strayByteEnv with
  | error e =>
    rw [hresult] at hrun
    cases hrun
  | ok config =>
    rw [hresult] at hrun
    refine ⟨config, rfl, Option.some.inj hrun, fun h => ?_⟩
    obtain ⟨text, f, htext, -⟩ := h.denoted ⟨#[0x36, 0x34, 0xFF]⟩ config rfl rfl
    have hnone : String.fromUTF8? ⟨#[0x36, 0x34, 0xFF]⟩ = none := by decide +kernel
    rw [hnone] at htext
    cases htext

end FromEnv

end Config

end PulseStream
