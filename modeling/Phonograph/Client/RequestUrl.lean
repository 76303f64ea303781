import Mathlib
import Phonograph.Client.View
import Phonograph.Lib.FormQuery
import Phonograph.Lib.Words

/-! # The address of a request

`flaskURL` joins eight values into one query without escaping any of them, and
Flask splits it again.  Ids, numbers and genres arrive as they are, for every
handler; the term is the last field, and `delivered_iff` says which terms arrive. -/

set_option autoImplicit false

namespace Phonograph.Client.RequestUrl

open Phonograph.Lib Phonograph.Lib.FormQuery Phonograph.Client.View

abbrev Route := Phonograph.Server.Routes.Route

def argumentsOf : Route → List String
  | .path => ["source", "destination"]
  | .neighbourhood => ["size", "genre", "origin"]
  | .zoom => ["origin", "size", "level"]
  | .custom => ["size", "core"]
  | .termsubgraph => ["term", "size"]
  | _ => []

/-- The values of the menu `#genre`. -/
def genreMenu : List String := ["null", "pop", "rock", "classical", "hip hop", "jazz",
  "electronic", "country", "reggae", "latin", "funk"]

def IsId (id : String) : Prop := ∀ c ∈ id.toList, c.isAlphanum

structure PageValues (gv : Gv) : Prop where
  origin : ∀ id ∈ gv.origin, IsId id
  source : ∀ id ∈ gv.source, IsId id
  destination : ∀ id ∈ gv.destination, IsId id
  core : ∀ core ∈ gv.core, ∃ ids : List String, (∀ id ∈ ids, IsId id) ∧
    core.toList = [','].intercalate (ids.map String.toList)
  genre : ∀ genre ∈ gv.genre, genre ∈ genreMenu

def earlierArguments (gv : Gv) : List (String × String) :=
  [("origin", orNull gv.origin), ("size", toString gv.size), ("genre", orNull gv.genre),
    ("level", toString gv.zoomLevel), ("source", orNull gv.source),
    ("destination", orNull gv.destination), ("core", orNull gv.core)]

def clientArguments (gv : Gv) : List (String × String) :=
  earlierArguments gv ++ [("term", orNull gv.term)]

/-- `request.args`, in the handler that the request reaches. -/
def requestArgs (browser : Browser) (gv : Gv) (name : String) : Option String :=
  firstField (browser.query (flaskURL gv).toList) name

/-- The handler gets the client's value for each of its arguments. -/
def Delivered (browser : Browser) (gv : Gv) (route : Route) : Prop :=
  ∀ name ∈ argumentsOf route, ∃ value, (clientArguments gv).lookup name = some value ∧
    requestArgs browser gv name = some value

/-! ## The fields of the address -/

theorem toList_flaskURL (gv : Gv) :
    (flaskURL gv).toList = ("/" ++ gv.route.text).toList ++ '?' ::
      (front ((earlierArguments gv).map fun pair => (pair.1.toList, pair.2.toList))
        "term".toList ++ (orNull gv.term).toList) := by
  have origin : "?origin=".toList = '?' :: ("origin".toList ++ ['=']) := by decide
  have size : "&size=".toList = '&' :: ("size".toList ++ ['=']) := by decide
  have genre : "&genre=".toList = '&' :: ("genre".toList ++ ['=']) := by decide
  have level : "&level=".toList = '&' :: ("level".toList ++ ['=']) := by decide
  have source : "&source=".toList = '&' :: ("source".toList ++ ['=']) := by decide
  have destination : "&destination=".toList = '&' :: ("destination".toList ++ ['=']) := by decide
  have core : "&core=".toList = '&' :: ("core".toList ++ ['=']) := by decide
  have term : "&term=".toList = '&' :: ("term".toList ++ ['=']) := by decide
  unfold flaskURL
  simp only [String.toList_append, origin, size, genre, level, source, destination, core, term,
    front, earlierArguments, List.map_cons, List.map_nil, List.flatMap_cons, List.flatMap_nil,
    List.append_assoc, List.cons_append, List.nil_append]

def Ordinary (text : String) : Prop := ∀ c ∈ text.toList, c.isAlphanum ∨ c = ',' ∨ c = ' '

theorem ordinary_of_all {text : String}
    (all : text.toList.all (fun c => c.isAlphanum || c == ',' || c == ' ') = true) :
    Ordinary text := by
  intro c member
  have this := List.all_eq_true.mp all c member
  simpa [or_assoc] using this

theorem tame_of_ordinary {browser : Browser} {text : String} (ordinary : Ordinary text) :
    Tame browser text.toList := by
  intro c member
  constructor
  · rcases ordinary c member with alphanum | rfl | rfl
    · rw [(browser.keeps c (Or.inl alphanum)).1]
      decide
    · rw [(browser.keeps ',' (Or.inr (by decide))).1]
      decide
    · rw [browser.escapes ' ' (Or.inl rfl)]
      decide
  · intro special
    have here := ordinary c member
    simp only [List.mem_cons, List.not_mem_nil, or_false] at special
    rcases special with rfl | rfl | rfl | rfl <;> exact absurd here (by decide)

theorem ordinary_id {id : String} (isId : IsId id) : Ordinary id :=
  fun c member => Or.inl (isId c member)

theorem ordinary_orNull {value : Option String} (each : ∀ text ∈ value, Ordinary text) :
    Ordinary (orNull value) := by
  cases value with
  | none => exact ordinary_of_all (by decide)
  | some text => exact each text rfl

theorem ordinary_toString (n : ℕ) : Ordinary (toString n) := by
  intro c member
  have digits : (toString n).toList = Nat.toDigits 10 n := String.toList_ofList
  rw [digits] at member
  have digit := Nat.isDigit_of_mem_toDigits (by decide) (by decide) member
  exact Or.inl (by simp [Char.isAlphanum, digit])

theorem ordinary_core {core : String} {ids : List String} (each : ∀ id ∈ ids, IsId id)
    (joined : core.toList = [','].intercalate (ids.map String.toList)) : Ordinary core := by
  intro c member
  rw [joined] at member
  rcases mem_intercalate member with comma | ⟨piece, among, inside⟩
  · exact Or.inr (Or.inl comma)
  · obtain ⟨id, listed, rfl⟩ := List.mem_map.mp among
    exact Or.inl (each id listed c inside)

theorem ordinary_genre {genre : String} (menu : genre ∈ genreMenu) : Ordinary genre := by
  have all : genreMenu.all (fun genre => genre.toList.all
      fun c => c.isAlphanum || c == ',' || c == ' ') = true := by decide
  exact ordinary_of_all (List.all_eq_true.mp all genre menu)

theorem ordinary_earlier {gv : Gv} (page : PageValues gv) :
    ∀ pair ∈ earlierArguments gv, Ordinary pair.2 := by
  intro pair member
  simp only [earlierArguments, List.mem_cons, List.not_mem_nil, or_false] at member
  rcases member with rfl | rfl | rfl | rfl | rfl | rfl | rfl
  · exact ordinary_orNull fun id here => ordinary_id (page.origin id here)
  · exact ordinary_toString gv.size
  · exact ordinary_orNull fun genre here => ordinary_genre (page.genre genre here)
  · exact ordinary_toString gv.zoomLevel
  · exact ordinary_orNull fun id here => ordinary_id (page.source id here)
  · exact ordinary_orNull fun id here => ordinary_id (page.destination id here)
  · apply ordinary_orNull
    intro core here
    obtain ⟨ids, each, joined⟩ := page.core core here
    exact ordinary_core each joined

theorem tame_names (browser : Browser) (gv : Gv) :
    ∀ pair ∈ earlierArguments gv, Tame browser pair.1.toList ∧ '=' ∉ pair.1.toList := by
  intro pair member
  have names : (earlierArguments gv).map Prod.fst =
      ["origin", "size", "genre", "level", "source", "destination", "core"] := rfl
  have listed : pair.1 ∈ (earlierArguments gv).map Prod.fst := List.mem_map_of_mem member
  rw [names] at listed
  have all : ["origin", "size", "genre", "level", "source", "destination", "core"].all
      (fun name => name.toList.all Char.isAlphanum) = true := by decide
  have letters := List.all_eq_true.mp (List.all_eq_true.mp all pair.1 listed)
  constructor
  · exact tame_of_ordinary fun c inside => Or.inl (letters c inside)
  · intro inside
    exact absurd (letters '=' inside) (by decide)

theorem fields_flaskURL (browser : Browser) {gv : Gv} (page : PageValues gv) :
    ∃ more, fields (browser.query (flaskURL gv).toList) = earlierArguments gv ++
      ("term", String.ofList (value (arriving browser (orNull gv.term).toList))) :: more := by
  have noQuestion : '?' ∉ ("/" ++ gv.route.text).toList := by
    cases gv.route <;> decide
  have tame : ∀ pair ∈ (earlierArguments gv).map (fun pair => (pair.1.toList, pair.2.toList)),
      TamePair browser pair := by
    intro pair member
    obtain ⟨pair, listed, rfl⟩ := List.mem_map.mp member
    obtain ⟨tameName, noEquals⟩ := tame_names browser gv pair listed
    exact ⟨tameName, noEquals, tame_of_ordinary (ordinary_earlier page pair listed)⟩
  have tameTerm : Tame browser "term".toList := tame_of_ordinary (ordinary_of_all (by decide))
  obtain ⟨more, same⟩ := fields_query noQuestion tame tameTerm (by decide) (orNull gv.term).toList
  rw [← toList_flaskURL, List.map_map] at same
  refine ⟨more, same.trans ?_⟩
  simp [Function.comp_def]

/-! ## What the handlers get -/

theorem requestArgs_earlier (browser : Browser) {gv : Gv} (page : PageValues gv) {name : String}
    {value : String} (found : (earlierArguments gv).lookup name = some value) :
    requestArgs browser gv name = some value := by
  obtain ⟨more, same⟩ := fields_flaskURL browser page
  rw [requestArgs, firstField, same, List.lookup_append, found]
  rfl

theorem requestArgs_term (browser : Browser) {gv : Gv} (page : PageValues gv) :
    requestArgs browser gv "term" =
      some (String.ofList (value (arriving browser (orNull gv.term).toList))) := by
  obtain ⟨more, same⟩ := fields_flaskURL browser page
  have later : (earlierArguments gv).lookup "term" = none := by simp [earlierArguments, List.lookup]
  rw [requestArgs, firstField, same, List.lookup_append, later]
  simp

theorem travels_of_ordinary {browser : Browser} {text : String} (ordinary : Ordinary text)
    (untrimmed : ∀ c ∈ text.toList.getLast?, browser.trims c = false) :
    Travels browser text.toList := by
  have tame : Tame browser text.toList := tame_of_ordinary ordinary
  constructor
  · intro c special
    apply notMem_of_tame tame
    simp only [List.mem_cons, List.not_mem_nil, or_false] at special ⊢
    tauto
  · exact fun c member => (tame c member).1
  · exact untrimmed
  · intro escapes
    exact notMem_of_tame tame (by decide) (percent_mem_of_escapes escapes)

theorem travels_null (browser : Browser) : Travels browser "null".toList := by
  apply travels_of_ordinary (ordinary_of_all (by decide))
  intro c last
  have final : c = 'l' := (Option.some.inj last).symm
  rw [final]
  exact (browser.keeps 'l' (Or.inl (by decide))).2

theorem requestArgs_term_iff (browser : Browser) {gv : Gv} (page : PageValues gv) :
    requestArgs browser gv "term" = some (orNull gv.term) ↔
      ∀ term ∈ gv.term, Travels browser term.toList := by
  rw [requestArgs_term browser page, Option.some.injEq, ← String.toList_inj,
    String.toList_ofList, value_arriving_eq_iff]
  cases gv.term with
  | none =>
      apply iff_of_true (travels_null browser)
      intro term here
      cases here
  | some term =>
      simp [orNull]

theorem lookup_term (gv : Gv) : (clientArguments gv).lookup "term" = some (orNull gv.term) := by
  simp [clientArguments, earlierArguments, List.lookup]

theorem lookup_earlier (gv : Gv) {route : Route} {name : String} (read : name ∈ argumentsOf route)
    (other : name ≠ "term") : ∃ value, (earlierArguments gv).lookup name = some value := by
  cases route <;> simp only [argumentsOf, List.mem_cons, List.not_mem_nil, or_false] at read
  case path => rcases read with rfl | rfl <;> exact ⟨_, rfl⟩
  case neighbourhood => rcases read with rfl | rfl | rfl <;> exact ⟨_, rfl⟩
  case zoom => rcases read with rfl | rfl | rfl <;> exact ⟨_, rfl⟩
  case custom => rcases read with rfl | rfl <;> exact ⟨_, rfl⟩
  case termsubgraph =>
    rcases read with rfl | rfl
    · exact absurd rfl other
    · exact ⟨_, rfl⟩

theorem delivered_earlier (browser : Browser) {gv : Gv} (page : PageValues gv) {route : Route}
    {name : String} (read : name ∈ argumentsOf route) (other : name ≠ "term") :
    ∃ value, (clientArguments gv).lookup name = some value ∧
      requestArgs browser gv name = some value := by
  obtain ⟨value, found⟩ := lookup_earlier gv read other
  refine ⟨value, ?_, requestArgs_earlier browser page found⟩
  rw [clientArguments, List.lookup_append, found]
  rfl

/-- For every handler, browser and client state: the handler gets the string forms of
the client's values exactly if it does not read the term, or there is none, or the
term can be sent as it is. -/
theorem delivered_iff (browser : Browser) {gv : Gv} (page : PageValues gv) (route : Route) :
    Delivered browser gv route ↔
      (route = .termsubgraph → ∀ term ∈ gv.term, Travels browser term.toList) := by
  rw [← requestArgs_term_iff browser page]
  constructor
  · intro delivered isTerm
    have read : "term" ∈ argumentsOf route := by
      rw [isTerm]
      exact List.mem_cons_self
    obtain ⟨value, asked, got⟩ := delivered "term" read
    rw [lookup_term] at asked
    exact got.trans asked.symm
  · intro arrives name read
    by_cases isTerm : name = "term"
    · subst isTerm
      have termsubgraph : route = .termsubgraph := by
        cases route <;> simp [argumentsOf] at read ⊢
      exact ⟨_, lookup_term gv, arrives termsubgraph⟩
    · exact delivered_earlier browser page read isTerm

section
open Phonograph.Server.Python Phonograph.Server.Redis Phonograph.Server.Routes

theorem serve_congr {F : Type} (P : Platform F) (fuel : ℕ) {route : Route}
    (graphs : argumentsOf route ≠ []) {args args' : String → Option String}
    (same : ∀ name ∈ argumentsOf route, args name = args' name) :
    serve P fuel ⟨route, args⟩ = serve P fuel ⟨route, args'⟩ := by
  cases route with
  | path =>
      have source := same "source" (by decide)
      have destination := same "destination" (by decide)
      simp only [serve, pathFinder, arg, source, destination]
  | neighbourhood =>
      have size := same "size" (by decide)
      have genre := same "genre" (by decide)
      have origin := same "origin" (by decide)
      simp only [serve, neighbourhood, intArg, arg, size, genre, origin]
  | zoom =>
      have origin := same "origin" (by decide)
      have size := same "size" (by decide)
      have level := same "level" (by decide)
      simp only [serve, zoom, intArg, arg, origin, size, level]
  | custom =>
      have size := same "size" (by decide)
      have core := same "core" (by decide)
      simp only [serve, customSubgraph, intArg, arg, size, core]
  | termsubgraph =>
      have term := same "term" (by decide)
      have size := same "size" (by decide)
      simp only [serve, termSubgraph, intArg, arg, term, size]
  | _ => exact absurd rfl graphs

theorem serve_of_delivered {F : Type} (P : Platform F) (fuel : ℕ) (browser : Browser) {gv : Gv}
    {route : Route} (graphs : argumentsOf route ≠ []) (delivered : Delivered browser gv route) :
    serve P fuel ⟨route, requestArgs browser gv⟩ =
      serve P fuel ⟨route, fun name => (clientArguments gv).lookup name⟩ := by
  apply serve_congr P fuel graphs
  intro name read
  obtain ⟨value, asked, got⟩ := delivered name read
  exact got.trans asked.symm

end

theorem plain_of_isAlphanum {c : Char} (alphanum : c.isAlphanum) :
    32 < c.toNat ∧ c.toNat < 127 ∧ c.toNat ∉ [34, 39, 60, 62] := by
  simp only [Char.isAlphanum, Char.isAlpha, Char.isUpper, Char.isLower, Char.isDigit, ge_iff_le,
    Bool.or_eq_true, Bool.and_eq_true, decide_eq_true_eq, UInt32.le_iff_toNat_le] at alphanum
  change ((65 ≤ c.toNat ∧ c.toNat ≤ 90) ∨ (97 ≤ c.toNat ∧ c.toNat ≤ 122)) ∨
    (48 ≤ c.toNat ∧ c.toNat ≤ 57) at alphanum
  refine ⟨by omega, by omega, ?_⟩
  simp only [List.mem_cons, List.not_mem_nil, or_false]
  omega

/-- A browser that follows the URL standard: it drops tabs and line breaks, trims blanks
and control characters, and escapes those, quotes and angle brackets. -/
def standardBrowser : Browser where
  fate c :=
    if c = '\t' ∨ c = '\n' ∨ c = '\r' then .dropped
    else if c.toNat ≤ 32 ∨ 127 ≤ c.toNat ∨ c.toNat ∈ [34, 39, 60, 62] then .escaped
    else .kept
  trims c := c.toNat ≤ 32
  keeps c plain := by
    obtain ⟨low, high, quotes⟩ : 32 < c.toNat ∧ c.toNat < 127 ∧ c.toNat ∉ [34, 39, 60, 62] := by
      rcases plain with alphanum | listed
      · exact plain_of_isAlphanum alphanum
      · simp only [List.mem_cons, List.not_mem_nil, or_false] at listed
        rcases listed with rfl | rfl | rfl | rfl | rfl <;> decide
    have blank : ¬ (c = '\t' ∨ c = '\n' ∨ c = '\r') := by
      rintro (rfl | rfl | rfl) <;> exact absurd low (by decide)
    have escaped : ¬ (c.toNat ≤ 32 ∨ 127 ≤ c.toNat ∨ c.toNat ∈ [34, 39, 60, 62]) := by
      rintro (less | more | quote)
      · omega
      · omega
      · exact quotes quote
    exact ⟨by rw [if_neg blank, if_neg escaped], decide_eq_false (by omega)⟩
  escapes c special := by
    have blank : ¬ (c = '\t' ∨ c = '\n' ∨ c = '\r') := by
      rintro (rfl | rfl | rfl) <;> exact absurd special (by decide)
    rw [if_neg blank, if_pos]
    rcases special with rfl | high
    · exact Or.inl (by decide)
    · exact Or.inr (Or.inl (by omega))

theorem delivered_hipHop :
    Delivered standardBrowser { route := .termsubgraph, term := some "hip hop" } .termsubgraph := by
  apply (delivered_iff standardBrowser ?_ .termsubgraph).mpr
  · intro _ term here
    obtain rfl := Option.some.inj here
    apply travels_of_ordinary (ordinary_of_all (by decide))
    intro c last
    obtain rfl := Option.some.inj last
    decide
  · constructor <;> simp

/-- A search for R&B: the handler looks up the term `r`. -/
theorem not_delivered :
    PageValues { route := .termsubgraph, term := some "r&b" } ∧
      requestArgs standardBrowser { route := .termsubgraph, term := some "r&b" } "term" = some "r" ∧
      ¬ Delivered standardBrowser { route := .termsubgraph, term := some "r&b" } .termsubgraph := by
  have page : PageValues { route := .termsubgraph, term := some "r&b" } := by
    constructor <;> simp
  have got : requestArgs standardBrowser { route := .termsubgraph, term := some "r&b" } "term" =
      some "r" := by
    rw [requestArgs_term standardBrowser page]
    decide
  refine ⟨page, got, ?_⟩
  intro delivered
  obtain ⟨value, asked, same⟩ := delivered "term" (by decide)
  rw [got] at same
  rw [lookup_term, ← same] at asked
  exact absurd asked (by decide)

end Phonograph.Client.RequestUrl
