import PulseStream.Core.Config
import PulseStream.Lib.Find

/-!
# The test-database guard

`split_database_name`, `guard_test_database_name` and `TestDatabase::create_empty` of
`pulsestream-store/src/testing.rs`, against `DatabaseUrl::parse`. The splitter ends the authority at
the first `/` only, the parser at the first `/` or `?`: `inspects_iff` says when they agree.
-/

namespace PulseStream

namespace Testing

open Config Find

def testDatabaseUrlVar : String := "PULSESTREAM_TEST_DATABASE_URL"

/-- The name and the query of what follows the first `/`. -/
def splitQuery (rest : List Char) : List Char × List Char :=
  match find ['?'] rest with
  | some q => (rest.take q, rest.drop q)
  | none => (rest, [])

/-- Splits `postgres://auth@host:port/name?query` into (prefix up to `/`, name, query). -/
def splitDatabaseName (url : List Char) : Option (List Char × List Char × List Char) := do
  let schemeEnd := (← find "://".toList url) + 3
  let pathStart := schemeEnd + (← find ['/'] (url.drop schemeEnd))
  some (url.take (pathStart + 1), splitQuery (url.drop (pathStart + 1)))

/-- An ASCII lowercase letter, a digit or an underscore. No byte of another character is one. -/
def isPlain (c : Char) : Bool := c.isLower || c.isDigit || c == '_'

/-- A plain identifier. -/
def Plain (name : List Char) : Prop := name ≠ [] ∧ name.all isPlain = true

instance : DecidablePred Plain := fun name => by
  unfold Plain
  infer_instance

/-- The refusal of a name. -/
structure GuardError where
  name : List Char
  deriving DecidableEq

/-- The text of the refusal; `debug` is Rust's `{:?}` of a string. -/
def GuardError.message (debug : List Char → String) (e : GuardError) : String :=
  testDatabaseUrlVar ++ " must name a database ending in `_test` " ++
    "(lowercase letters, digits, underscores); refusing to use " ++ debug e.name

/-- Refuses anything but a plain identifier ending in `_test`. -/
def guardTestDatabaseName (name : List Char) : Except GuardError Unit :=
  if Plain name ∧ "_test".toList.isSuffixOf name then .ok () else .error ⟨name⟩

theorem guardTestDatabaseName_eq_ok {name : List Char} :
    guardTestDatabaseName name = .ok () ↔ Plain name ∧ "_test".toList <:+ name := by
  unfold guardTestDatabaseName
  rw [← List.isSuffixOf_iff_suffix]
  split_ifs with h
  · exact iff_of_true rfl h
  · exact iff_of_false (by simp) h

/-! ## Splitting -/

section Split

variable {url p n q scheme authority : List Char}

/-- The parts that `splitDatabaseName` returns, with the scheme and the authority in the first. -/
structure Cut (scheme authority p n q : List Char) : Prop where
  first : First "://".toList scheme
  noSlash : '/' ∉ authority
  start : p = scheme ++ "://".toList ++ authority ++ ['/']
  noQuery : '?' ∉ n
  query : q = [] ∨ ∃ q', q = '?' :: q'

theorem splitQuery_append (hn : '?' ∉ n) (hq : q = [] ∨ ∃ q', q = '?' :: q') :
    splitQuery (n ++ q) = (n, q) := by
  unfold splitQuery
  rcases hq with rfl | ⟨q', rfl⟩
  · rw [List.append_nil, find_singleton_eq_none.mpr hn]
  · rw [find_cons hn q']
    simp

theorem splitQuery_spec (rest : List Char) :
    ∃ n q, splitQuery rest = (n, q) ∧ rest = n ++ q ∧ '?' ∉ n ∧ (q = [] ∨ ∃ q', q = '?' :: q') := by
  cases hf : find ['?'] rest with
  | none =>
    have hn := find_singleton_eq_none.mp hf
    exact ⟨rest, [], by simpa using splitQuery_append hn (.inl rfl), by simp, hn, .inl rfl⟩
  | some i =>
    obtain ⟨ys, zs, rfl, -, hfirst⟩ := find_eq_some.mp hf
    have hn := first_singleton.mp hfirst
    have hquery : ∃ q', '?' :: zs = '?' :: q' := ⟨zs, rfl⟩
    rw [List.append_assoc, List.singleton_append]
    exact ⟨ys, '?' :: zs, splitQuery_append hn (.inr hquery), rfl, hn, .inr hquery⟩

theorem Cut.split (h : Cut scheme authority p n q) :
    splitDatabaseName (p ++ n ++ q) = some (p, n, q) := by
  obtain ⟨hfirst, hslash, rfl, hn, hq⟩ := h
  have hurl : scheme ++ "://".toList ++ authority ++ ['/'] ++ n ++ q =
      scheme ++ "://".toList ++ (authority ++ '/' :: (n ++ q)) := by
    simp only [List.append_assoc, List.cons_append, List.nil_append]
  have hlen : (scheme ++ "://".toList).length = scheme.length + 3 := List.length_append
  have hcut : scheme.length + 3 + authority.length + 1 =
      (scheme ++ "://".toList ++ authority ++ ['/']).length := by
    rw [List.length_append, List.length_append, hlen]
    rfl
  unfold splitDatabaseName
  rw [hurl, find_append.mpr hfirst]
  simp only [Option.bind_eq_bind, Option.bind_some]
  rw [← hlen, List.drop_left, find_cons hslash]
  simp only [Option.bind_some]
  rw [hlen, ← hurl, hcut, List.append_assoc _ n q, List.take_left, List.drop_left,
    splitQuery_append hn hq]

/-- **What the splitter returns** is a cut of the URL. -/
theorem splitDatabaseName_eq_some :
    splitDatabaseName url = some (p, n, q) ↔
      url = p ++ n ++ q ∧ ∃ scheme authority, Cut scheme authority p n q := by
  constructor
  · intro h
    have hparts := h
    unfold splitDatabaseName at hparts
    simp only [Option.bind_eq_bind, Option.bind_eq_some_iff] at hparts
    obtain ⟨i, hi, j, hj, -⟩ := hparts
    obtain ⟨scheme, rest, rfl, rfl, hfirst⟩ := find_eq_some.mp hi
    have hlen : (scheme ++ "://".toList).length = scheme.length + 3 := List.length_append
    rw [← hlen, List.drop_left] at hj
    obtain ⟨authority, tail, rfl, rfl, hslash⟩ := find_eq_some.mp hj
    obtain ⟨n', q', -, rfl, hn, hq⟩ := splitQuery_spec tail
    have hcut : Cut scheme authority (scheme ++ "://".toList ++ authority ++ ['/']) n' q' :=
      ⟨hfirst, first_singleton.mp hslash, rfl, hn, hq⟩
    have hurl : scheme ++ "://".toList ++ (authority ++ ['/'] ++ (n' ++ q')) =
        scheme ++ "://".toList ++ authority ++ ['/'] ++ n' ++ q' := by
      simp only [List.append_assoc]
    -- the splitter is a function, so these parts are the ones it returned
    rw [hurl, hcut.split] at h
    obtain ⟨rfl, hrest⟩ := Prod.mk.inj (Option.some.inj h)
    obtain ⟨rfl, rfl⟩ := Prod.mk.inj hrest
    exact ⟨hurl, scheme, authority, hcut⟩
  · rintro ⟨rfl, scheme, authority, h⟩
    exact h.split

/-- The prefix without its scheme and its final `/`. -/
def authorityOfPrefix (p : List Char) : List Char :=
  (p.drop ((find "://".toList p).getD 0 + 3)).dropLast

theorem Cut.authorityOfPrefix (h : Cut scheme authority p n q) :
    Testing.authorityOfPrefix p = authority := by
  obtain ⟨hfirst, -, rfl, -, -⟩ := h
  have hlen : (scheme ++ "://".toList).length = scheme.length + 3 := List.length_append
  unfold Testing.authorityOfPrefix
  rw [List.append_assoc _ authority, find_append.mpr hfirst, Option.getD_some, ← hlen,
    List.drop_left, List.dropLast_concat]

end Split

/-! ## The two splitters -/

variable {url : String} {u : DatabaseUrl} {p n q scheme authority : List Char}

/-- Both splitters find the same scheme, and what the first one calls the authority is what the
second one reads up to some `/`. -/
theorem Cut.rest (h : Cut scheme authority p n q) (hurl : url.toList = p ++ n ++ q)
    (hparse : DatabaseUrl.parse url = .ok u) :
    ':' ∉ scheme ∧ ∃ tail, u.authority = authorityOf (authority ++ '/' :: tail) := by
  obtain ⟨l, r, htrim, hl, hr⟩ := trim_append url
  obtain ⟨start, rest, hstart, hvalue, hauthority⟩ := u.value_eq
  have hslash : '/' ∉ r := fun hmem => absurd (hr '/' hmem) (by decide)
  have hcolon : ':' ∉ l ++ start := by
    intro hmem
    rcases List.mem_append.mp hmem with hmem | hmem
    · exact absurd (hl ':' hmem) (by decide)
    · rcases hstart with rfl | rfl <;> exact absurd hmem (by decide)
  -- the URL, cut in two ways
  have hfirst : url.toList = scheme ++ "://".toList ++ (authority ++ '/' :: (n ++ q)) := by
    rw [hurl, h.start]
    simp only [List.append_assoc, List.cons_append, List.nil_append]
  have hsecond : url.toList = l ++ start ++ "://".toList ++ (rest ++ r) := by
    rw [htrim, ← DatabaseUrl.parse_eq_ok.mp hparse, hvalue]
    simp only [List.append_assoc]
  obtain ⟨rfl, hsame⟩ := h.first.unique (first_of_not_mem hcolon) (hfirst.symm.trans hsecond)
  refine ⟨hcolon, ?_⟩
  -- the first `/` is not in the whitespace that was trimmed
  rcases List.append_eq_append_iff.mp hsame with ⟨c, rfl, hr'⟩ | ⟨c, rfl, hr'⟩
  · cases c with
    | nil =>
      rw [List.nil_append] at hr'
      exact absurd (hr' ▸ List.mem_cons_self) hslash
    | cons x c =>
      obtain ⟨rfl, -⟩ := List.cons.inj hr'
      exact ⟨c, hauthority⟩
  · exact absurd (hr' ▸ List.mem_append_right c List.mem_cons_self) hslash

theorem authorityOf_eq_iff (hslash : '/' ∉ authority) (tail : List Char) :
    authorityOf (authority ++ '/' :: tail) = authority ↔ '?' ∉ authority := by
  unfold authorityOf
  constructor
  · intro h hmem
    rw [← h] at hmem
    exact absurd (List.mem_takeWhile_imp hmem) (by decide)
  · intro hquery
    rw [List.takeWhile_append_of_pos, List.takeWhile_cons_of_neg (by decide), List.append_nil]
    intro c hc
    have hne : c ≠ '/' ∧ c ≠ '?' := ⟨fun h => hslash (h ▸ hc), fun h => hquery (h ▸ hc)⟩
    simpa using hne

/-- The text between the `://` of a URL and the first `/` after it. -/
def beforePath (url : List Char) : List Char :=
  ((url.dropWhile fun c => c ≠ ':').drop 3).takeWhile fun c => c ≠ '/'

theorem beforePath_eq (hcolon : ':' ∉ scheme) (hslash : '/' ∉ authority) (rest : List Char) :
    beforePath (scheme ++ "://".toList ++ (authority ++ '/' :: rest)) = authority := by
  have hscheme : ∀ c ∈ scheme, decide (c ≠ ':') = true := fun c hc =>
    decide_eq_true fun heq => hcolon (heq ▸ hc)
  have hauthority : ∀ c ∈ authority, decide (c ≠ '/') = true := fun c hc =>
    decide_eq_true fun heq => hslash (heq ▸ hc)
  unfold beforePath
  rw [List.append_assoc, List.dropWhile_append_of_pos hscheme]
  show (authority ++ '/' :: rest).takeWhile _ = authority
  rw [List.takeWhile_append_of_pos hauthority, List.takeWhile_cons_of_neg (by decide),
    List.append_nil]

/-- What the guard is for: the parts are the whole URL, the guarded name follows the authority, and
a plain name put in its place is the name of the new URL. -/
structure Inspects (url : String) (u : DatabaseUrl) (p n q : List Char) : Prop where
  whole : p ++ n ++ q = url.toList
  authority : authorityOfPrefix p = u.authority
  resplit : ∀ m, Plain m → splitDatabaseName (p ++ m ++ q) = some (p, m, q)

theorem Plain.noQuery {m : List Char} (h : Plain m) : '?' ∉ m :=
  fun hmem => absurd (List.all_eq_true.mp h.2 '?' hmem) (by decide)

/-- **The guard** inspects the database that the URL names exactly if there is no `?` between the
scheme and the first `/`. -/
theorem inspects_iff (hparse : DatabaseUrl.parse url = .ok u)
    (hsplit : splitDatabaseName url.toList = some (p, n, q)) :
    Inspects url u p n q ↔ '?' ∉ beforePath url.toList := by
  obtain ⟨hurl, scheme, authority, hcut⟩ := splitDatabaseName_eq_some.mp hsplit
  obtain ⟨hcolon, tail, hauthority⟩ := hcut.rest hurl hparse
  have hbefore : beforePath url.toList = authority := by
    refine Eq.trans ?_ (beforePath_eq hcolon hcut.noSlash (n ++ q))
    rw [hurl, hcut.start]
    simp only [List.append_assoc, List.cons_append, List.nil_append]
  rw [hbefore, ← authorityOf_eq_iff hcut.noSlash tail, ← hauthority]
  constructor
  · intro h
    rw [← h.authority, hcut.authorityOfPrefix]
  · intro h
    refine ⟨hurl.symm, hcut.authorityOfPrefix.trans h.symm, fun m hm => ?_⟩
    exact Cut.split ⟨hcut.first, hcut.noSlash, hcut.start, hm.noQuery, hcut.query⟩

/-- The URL of the repository's own test. -/
theorem inspects_iff_sample :
    ∃ u, DatabaseUrl.parse "postgres://u:p@h:1/pulsestream_test?sslmode=disable" = .ok u ∧
      guardTestDatabaseName "pulsestream_test".toList = .ok () ∧
      Inspects "postgres://u:p@h:1/pulsestream_test?sslmode=disable" u
        "postgres://u:p@h:1/".toList "pulsestream_test".toList "?sslmode=disable".toList := by
  have hvalid : validateUrl (trim "postgres://u:p@h:1/pulsestream_test?sslmode=disable") =
      .ok () := by decide +kernel
  have hcut : Cut "postgres".toList "u:p@h:1".toList "postgres://u:p@h:1/".toList
      "pulsestream_test".toList "?sslmode=disable".toList :=
    ⟨first_of_not_mem (by decide), by decide, by decide, by decide, .inr ⟨_, rfl⟩⟩
  have hquery : '?' ∉ beforePath
      "postgres://u:p@h:1/pulsestream_test?sslmode=disable".toList := by decide
  have hparse : DatabaseUrl.parse "postgres://u:p@h:1/pulsestream_test?sslmode=disable" =
      .ok ⟨_, hvalid⟩ := DatabaseUrl.parse_eq_ok.mpr rfl
  have hguard : guardTestDatabaseName "pulsestream_test".toList = .ok () :=
    guardTestDatabaseName_eq_ok.mpr ⟨by decide, "pulsestream".toList, by decide⟩
  exact ⟨_, hparse, hguard, (inspects_iff hparse hcut.split).mpr hquery⟩

/-- The driver takes the database of this URL from the query, and the guard approves of the end of
another parameter. -/
def queryUrl : String := "postgres://h?dbname=prod&application_name=/a_test"

theorem query_guarded :
    ∃ u, DatabaseUrl.parse queryUrl = .ok u ∧ u.authority = "h".toList ∧
      splitDatabaseName queryUrl.toList =
        some ("postgres://h?dbname=prod&application_name=/".toList, "a_test".toList, []) ∧
      guardTestDatabaseName "a_test".toList = .ok () ∧
      ¬ Inspects queryUrl u "postgres://h?dbname=prod&application_name=/".toList
        "a_test".toList [] := by
  have hcut : Cut "postgres".toList "h?dbname=prod&application_name=".toList
      "postgres://h?dbname=prod&application_name=/".toList "a_test".toList [] :=
    ⟨first_of_not_mem (by decide), by decide, by decide, by decide, .inl rfl⟩
  have hvalid : validateUrl (trim queryUrl) = .ok () := by decide +kernel
  have hvalue : afterScheme (trim queryUrl) =
      some "h?dbname=prod&application_name=/a_test".toList := by decide +kernel
  have hauthority : (⟨_, hvalid⟩ : DatabaseUrl).authority = "h".toList := by
    unfold DatabaseUrl.authority
    rw [hvalue]
    decide
  have hguard : guardTestDatabaseName "a_test".toList = .ok () :=
    guardTestDatabaseName_eq_ok.mpr ⟨by decide, "a".toList, by decide⟩
  refine ⟨⟨_, hvalid⟩, DatabaseUrl.parse_eq_ok.mpr rfl, hauthority, hcut.split, hguard, fun h => ?_⟩
  have hwrong := h.authority.trans hauthority
  rw [hcut.authorityOfPrefix] at hwrong
  exact absurd hwrong (by decide)

/-! ## `TestDatabase::create_empty` -/

/-- A disposable database: its URL, the URL it is created and dropped through, and its name. -/
structure TestDatabase where
  url : DatabaseUrl
  adminUrl : String
  name : List Char
  deriving DecidableEq

/-- How `create_empty` panics before it connects or after it has created the database. -/
inductive CreatePanic where
  | noDatabaseName
  | refused (e : GuardError)
  | invalidUrl (e : ConfigError)
  deriving DecidableEq

/-- `TestDatabase::create_empty`; `hex` is the beginning of a new UUID. -/
def TestDatabase.createEmpty (adminUrl : String) (hex : List Char) :
    Except CreatePanic TestDatabase := do
  let parts ← okOr (splitDatabaseName adminUrl.toList) .noDatabaseName
  (guardTestDatabaseName parts.2.1).mapError .refused
  let name := parts.2.1 ++ '_' :: hex
  let url := parts.1 ++ name ++ parts.2.2
  let parsed ← (DatabaseUrl.parse (String.ofList url)).mapError .invalidUrl
  return ⟨parsed, adminUrl, name⟩

theorem TestDatabase.createEmpty_name {adminUrl : String} {hex : List Char} {db : TestDatabase}
    (hhex : hex.all isPlain = true) (h : createEmpty adminUrl hex = .ok db) :
    ∃ p n q, splitDatabaseName adminUrl.toList = some (p, n, q) ∧ "_test".toList <:+ n ∧
      db.name = n ++ '_' :: hex ∧ Plain db.name ∧
      splitDatabaseName (p ++ db.name ++ q) = some (p, db.name, q) ∧
      DatabaseUrl.parse (String.ofList (p ++ db.name ++ q)) = .ok db.url := by
  unfold createEmpty at h
  obtain ⟨⟨p, n, q⟩, hsplit, h⟩ := bind_eq_ok.mp h
  obtain ⟨⟨⟩, hguard, h⟩ := bind_eq_ok.mp h
  obtain ⟨parsed, hparsed, h⟩ := bind_eq_ok.mp h
  cases h
  replace hsplit := okOr_eq_ok.mp hsplit
  obtain ⟨hplain, htest⟩ := guardTestDatabaseName_eq_ok.mp (mapError_eq_ok.mp hguard)
  obtain ⟨-, scheme, authority, hcut⟩ := splitDatabaseName_eq_some.mp hsplit
  have hname : Plain (n ++ '_' :: hex) := by
    refine ⟨by simp, ?_⟩
    rw [List.all_append, List.all_cons, hplain.2, hhex]
    decide
  refine ⟨p, n, q, hsplit, htest, rfl, hname, ?_, mapError_eq_ok.mp hparsed⟩
  exact Cut.split ⟨hcut.first, hcut.noSlash, hcut.start, hname.noQuery, hcut.query⟩

end Testing

end PulseStream
