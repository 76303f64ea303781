import Mathlib
import Phonograph.Lib.Rejection
import Phonograph.Lib.Words
import Phonograph.Server.Footprints

/-! # The two searches

A text that is typed into a search field becomes a list of words.  The reply holds the
best of what is listed under all of them, by the sum of the scores; a word under which
nothing is listed leaves nothing. -/

set_option autoImplicit false

namespace Phonograph.Server.Search

open Phonograph.Lib Phonograph.Server.Redis Phonograph.Server.Python
open Phonograph.Server.Database Phonograph.Server.Routes Phonograph.Server.Footprints

/-! ## What is typed -/

/-- `request.term.split(' ').join(',')`. -/
def typedQuery (typed : String) : String :=
  String.ofList ([','].intercalate (typed.toList.splitOn ' '))

def isBreak (c : Char) : Bool := c = ' ' ∨ c = ','

section Words
variable {F : Type} (P : Platform F)

def typedWords (typed : String) : List String :=
  (typed.toList.splitOnP isBreak).map fun word => P.lower (String.ofList word)

theorem toList_typedQuery (typed : String) :
    (typedQuery typed).toList = typed.toList.map fun c => if c = ' ' then ',' else c := by
  rw [typedQuery, String.toList_ofList, intercalate_splitOn]

theorem splitOn_map_comma (text : List Char) :
    (text.map fun c => if c = ' ' then ',' else c).splitOn ',' = text.splitOnP isBreak := by
  induction text with
  | nil => rfl
  | cons c text ih =>
      rw [List.splitOn] at ih ⊢
      rw [List.map_cons, List.splitOnP_cons_eq_if_modifyHead, List.splitOnP_cons_eq_if_modifyHead,
        ih]
      by_cases blank : c = ' '
      · simp [blank, isBreak]
      · by_cases comma : c = ','
        · simp [comma, isBreak]
        · simp [blank, comma, isBreak]

theorem searchWords_typedQuery (typed : String) :
    searchWords P (typedQuery typed) = typedWords P typed := by
  rw [searchWords, typedWords, split, toList_typedQuery, splitOn_map_comma, List.map_map]
  rfl

end Words

/-! ## The best entries -/

section Best
variable {S : Type} [Score S]

def Ahead (z : ZSet S) (a b : String) : Prop :=
  ∃ x y, (a, x) ∈ z.entries ∧ (b, y) ∈ z.entries ∧ RevLe (a, x) (b, y)

structure Best (z : ZSet S) (count : ℕ) (values : List String) : Prop where
  nodup : values.Nodup
  mem : ∀ a ∈ values, a ∈ z.members
  length : values.length = min count z.members.length
  sorted : values.Pairwise (Ahead z)
  first : ∀ a ∈ values, ∀ b ∈ z.members, b ∉ values → Ahead z a b

theorem pairwise_revSorted (z : ZSet S) : z.revSorted.Pairwise (Ahead z) := by
  have perm := List.perm_insertionSort RevLe z.entries
  rw [ZSet.revSorted, List.pairwise_map]
  refine (List.pairwise_insertionSort RevLe z.entries).imp_of_mem ?_
  intro a b left right le
  exact ⟨a.2, b.2, perm.mem_iff.mp left, perm.mem_iff.mp right, le⟩

theorem best_take (z : ZSet S) (count : ℕ) : Best z count (z.revSorted.take count) := by
  have perm := perm_revSorted z
  have nodup : z.revSorted.Nodup := perm.nodup_iff.mpr z.nodup
  have whole := List.take_append_drop count z.revSorted
  have sorted : (z.revSorted.take count ++ z.revSorted.drop count).Pairwise (Ahead z) :=
    whole.symm ▸ pairwise_revSorted z
  constructor
  · exact nodup.sublist (List.take_sublist _ _)
  · exact fun a inside => perm.mem_iff.mp (List.mem_of_mem_take inside)
  · rw [List.length_take, perm.length_eq]
  · exact (List.pairwise_append.mp sorted).1
  · intro a inside b member outside
    have listed : b ∈ z.revSorted.take count ++ z.revSorted.drop count := by
      rw [whole]
      exact perm.mem_iff.mpr member
    exact (List.pairwise_append.mp sorted).2.2 a inside b ((List.mem_append.mp listed).resolve_left outside)

def bySize (sources : List (ZSet S)) : List (ZSet S) :=
  sources.insertionSort fun a b => a.entries.length ≤ b.entries.length

/-- The sum of the scores of a member, in the order of the sources, if all have it. -/
def total (sources : List (ZSet S)) (member : String) : Option S :=
  match sources with
  | [] => none
  | first :: rest => (first.entries.lookup member).bind (interScore rest member)

theorem mem_interSources_entries {sources : List (ZSet S)} {z : ZSet S}
    (inter : interSources sources = .ok z) (member : String) (score : S) :
    (member, score) ∈ z.entries ↔ total (bySize sources) member = some score := by
  rw [interSources] at inter
  rw [bySize]
  cases found : sources.insertionSort (fun a b => a.entries.length ≤ b.entries.length) with
  | nil =>
      rw [found] at inter
      cases inter
  | cons first rest =>
      rw [found] at inter
      obtain rfl := Except.ok.inj inter
      simp only [ZSet.inter, total, List.mem_filterMap, Option.map_eq_some_iff, Prod.mk.injEq,
        Option.bind_eq_some_iff, lookup_eq_some]
      constructor
      · rintro ⟨⟨name, x⟩, inside, sum, whole, rfl, rfl⟩
        exact ⟨x, inside, whole⟩
      · rintro ⟨x, inside, whole⟩
        exact ⟨(member, x), inside, score, whole, rfl, rfl⟩

/-- `values` are the best `count` members that all sources list, by the sums of their scores. -/
def Answers (sources : List (ZSet S)) (count : ℕ) (values : List String) : Prop :=
  ∃ z : ZSet S, (∀ member, member ∈ z.members ↔ ∀ source ∈ sources, member ∈ source.members) ∧
    (∀ member score, (member, score) ∈ z.entries ↔ total (bySize sources) member = some score) ∧
    Best z count values

theorem interSources_answers {sources : List (ZSet S)} {z : ZSet S}
    (inter : interSources sources = .ok z) (count : ℕ) :
    Answers sources count (z.revSorted.take count) :=
  ⟨z, mem_interSources inter, mem_interSources_entries inter, best_take z count⟩

def Lists (value : Option (Value S)) : Prop := ∃ source, asSource value = .ok source

def sourceAt (value : Option (Value S)) : ZSet S :=
  match asSource value with
  | .ok source => source
  | .error _ => ⟨[], List.nodup_nil⟩

theorem asSource_sourceAt {value : Option (Value S)} (lists : Lists value) :
    asSource value = .ok (sourceAt value) := by
  obtain ⟨source, found⟩ := lists
  rw [sourceAt, found]

theorem asSource_error {value : Option (Value S)} {error : PyErr}
    (failed : asSource value = .error error) :
    error = .responseError := by
  rcases value with _ | (z | m | fields | _)
  · cases failed
  · cases failed
  · cases failed
  · exact (Except.error.inj failed).symm
  · exact (Except.error.inj failed).symm

/-- A key of another kind among the sources fails the intersection. -/
theorem interKeys_unlisted {store : Store S} : ∀ {keys : List String} {key : String}, key ∈ keys →
    ¬ Lists (store key) → interKeys keys store = .error .responseError := by
  intro keys key member unlisted
  have failed : (keys.map store).mapM asSource = .error .responseError := by
    induction keys with
    | nil => cases member
    | cons first keys ih =>
        rw [List.map_cons, List.mapM_cons]
        cases found : asSource (store first) with
        | error error =>
            rw [asSource_error found]
            rfl
        | ok source =>
            have later : key ∈ keys := by
              refine (List.mem_cons.mp member).resolve_left ?_
              rintro rfl
              exact unlisted ⟨source, found⟩
            rw [ok_bind, ih later]
            rfl
  rw [interKeys, failed]
  rfl

end Best

/-! ## The replies -/

section Replies
variable {F S : Type} [Score S] {base : Store S} {key : String}

theorem settles_lookup {α : Type} (scratched : key ∈ scratch) {keys : List String}
    (fresh : ∀ k ∈ keys, k ∉ scratch) {rest : List String → Handler α}
    {result : List String → Except PyErr α}
    (after : ∀ values, Settles (machine S) scratch base (rest values) (result values)) :
    Settles (machine S) scratch base (do
        let _ ← Handler.zinterstore key keys
        rest (← Handler.zrevrange key 0 20))
      ((interKeys keys base).bind fun z => result (z.revSorted.take 21)) := by
  intro store agree tape
  have same : interKeys keys store = interKeys keys base :=
    interKeys_congr fun k member => agree k (fresh k member)
  cases found : interKeys keys base with
  | error error =>
      refine ⟨store, ?_, agree⟩
      simp only [Handler.zinterstore, Script.call_bind, run_call, machine, exec, same, found,
        Except.map]
      rfl
  | ok z =>
      have wrote : AgreeOff scratch (Function.update store key z.stored) base := by
        intro k clean
        have other : k ≠ key := fun same => clean (same ▸ scratched)
        rw [Function.update_of_ne other]
        exact agree k clean
      have front : range 0 20 z.revSorted = z.revSorted.take 21 := range_front 20 _
      rw [run_lookup (same.trans found), front]
      exact after _ _ wrote tape

theorem search_result {α : Type} {keys : List String} (some : keys ≠ [])
    (result : List String → Except PyErr α) :
    (∃ k ∈ keys, ¬ Lists (base k)) ∧
        ((interKeys keys base).bind fun z => result (z.revSorted.take 21)) = .error .responseError ∨
      (∀ k ∈ keys, Lists (base k)) ∧
        ∃ values, Answers (keys.map fun k => sourceAt (base k)) 21 values ∧
        ((interKeys keys base).bind fun z => result (z.revSorted.take 21)) = result values := by
  by_cases all : ∀ k ∈ keys, Lists (base k)
  · have found := interKeys_eq fun k member => asSource_sourceAt (all k member)
    obtain ⟨z, inter⟩ := interSources_ok (keys.map fun k => sourceAt (base k)) (by simpa using some)
    refine Or.inr ⟨all, z.revSorted.take 21, interSources_answers inter 21, ?_⟩
    rw [found, inter]
    rfl
  · push Not at all
    obtain ⟨k, member, unlisted⟩ := all
    refine Or.inl ⟨⟨k, member, unlisted⟩, ?_⟩
    rw [interKeys_unlisted member unlisted]
    rfl

section Routes
variable (P : Platform F)

def namedOptions (db : MusicDb S) (values : List String) : Response F :=
  .options (values.map fun value => (value, db.artistInfo value "name"))

theorem gives_artistOptions (db : MusicDb S) (values : List String) :
    Gives (machine S) scratch db.store (artistOptions values : Handler (Response F))
      (namedOptions db values) := by
  have each : ∀ value, Gives (machine S) scratch db.store (do
      return (value, ← Handler.hget (artistInfoKey value) "name")) (value, db.artistInfo value "name") :=
    fun value => (yields_hget (artistInfoKey_not_scratch value) "name" (db.artistInfo_kind value)).bind
      _ (Gives.done _ _ _ _)
  exact (Gives.mapM _ values fun value _ => each value).bind _ (Gives.done _ _ _ _)

/-- Two blanks do not follow each other, and none stands at an end. -/
def Spelled (value : String) : Prop := [] ∉ value.toList.splitOn ' '

instance (value : String) : Decidable (Spelled value) :=
  inferInstanceAs (Decidable ([] ∉ value.toList.splitOn ' '))

def raiseWord : List Char → List Char
  | [] => []
  | c :: word => P.upper c :: word

/-- The text with each letter raised that stands behind a blank, or at the start of the text. -/
def raised : Bool → List Char → List Char
  | _, [] => []
  | first, c :: text => (if first then P.upper c else c) :: raised (c == ' ') text

theorem raised_words (text : List Char) : ∀ word words, text.splitOn ' ' = word :: words →
    [] ∉ words →
    [' '].intercalate (word :: words.map (raiseWord P)) = raised P false text ∧
      (word ≠ [] → [' '].intercalate (raiseWord P word :: words.map (raiseWord P)) = raised P true text) := by
  induction text with
  | nil =>
      intro word words cut _
      obtain ⟨rfl, rfl⟩ := List.cons.inj cut
      exact ⟨rfl, fun ne => absurd rfl ne⟩
  | cons c text ih =>
      intro word words cut whole
      obtain ⟨next, rest, found⟩ := List.exists_cons_of_ne_nil (List.splitOn_ne_nil ' ' text)
      by_cases blank : c = ' '
      · rw [blank, splitOn_cons_self, found] at cut
        obtain ⟨rfl, rfl⟩ := List.cons.inj cut
        obtain ⟨ne, whole⟩ := not_or.mp (mt List.mem_cons.mpr whole)
        refine ⟨?_, fun ne => absurd rfl ne⟩
        rw [List.map_cons, List.intercalate_cons_cons, (ih next rest found whole).2 (Ne.symm ne),
          raised, beq_iff_eq.mpr blank, blank]
        rfl
      · rw [splitOn_cons_of_ne blank found] at cut
        obtain ⟨rfl, rfl⟩ := List.cons.inj cut
        have head : ∀ d, [' '].intercalate ((d :: next) :: rest.map (raiseWord P)) =
            d :: raised P false text := by
          intro d
          rw [intercalate_cons_head, (ih next rest found whole).1]
        have later : (c == ' ') = false := beq_eq_false_iff_ne.mpr blank
        constructor
        · rw [raised, later]
          exact head c
        · intro _
          rw [raised, later]
          exact head (P.upper c)

theorem mapM_ite {α β : Type} {error : PyErr} {keeps : α → Prop} [DecidablePred keeps]
    {f : α → Except PyErr β} {g : α → β}
    (each : ∀ a, f a = if keeps a then .ok (g a) else .error error) : ∀ items : List α,
      items.mapM f = if ∀ a ∈ items, keeps a then .ok (items.map g) else .error error := by
  intro items
  induction items with
  | nil => simp [pure, Except.pure]
  | cons a items ih =>
      rw [List.mapM_cons, each a, ih]
      by_cases first : keeps a
      · by_cases later : ∀ a ∈ items, keeps a
        · rw [if_pos first, if_pos later, if_pos (List.forall_mem_cons.mpr ⟨first, later⟩)]
          rfl
        · rw [if_pos first, if_neg later, if_neg fun all => later (List.forall_mem_cons.mp all).2]
          rfl
      · rw [if_neg first, if_neg fun all => first (List.forall_mem_cons.mp all).1]
        rfl

def genreLabel (value : String) : String := String.ofList (raised P true value.toList)

theorem capitalise_eq (value : String) :
    capitalise P value = if Spelled value then .ok (genreLabel P value) else .error .indexError := by
  have word : ∀ cs, capitaliseWord P cs = if cs ≠ [] then .ok (raiseWord P cs) else .error .indexError := by
    intro cs
    cases cs with
    | nil => rfl
    | cons c cs => rfl
  rw [capitalise, mapM_ite word]
  obtain ⟨first, rest, found⟩ := List.exists_cons_of_ne_nil (List.splitOn_ne_nil ' ' value.toList)
  by_cases spelled : Spelled value
  · have all : ∀ cs ∈ value.toList.splitOn ' ', cs ≠ [] := fun cs inside empty => spelled (empty ▸ inside)
    rw [if_pos all, if_pos spelled]
    rw [Spelled, found] at spelled
    obtain ⟨ne, whole⟩ := not_or.mp (mt List.mem_cons.mpr spelled)
    rw [found, ok_bind, List.map_cons, (raised_words P _ first rest found whole).2 (Ne.symm ne)]
    rfl
  · have some : ¬ ∀ cs ∈ value.toList.splitOn ' ', cs ≠ [] := fun all =>
      spelled fun inside => all [] inside rfl
    rw [if_neg some, if_neg spelled]
    rfl

def genreReply (values : List String) : Except PyErr (Response F) :=
  if ∀ value ∈ values, Spelled value then
    .ok (.options (values.map fun value => (value, some (genreLabel P value))))
  else .error .indexError

theorem settles_genreOptions (values : List String) :
    Settles (machine S) scratch base (genreOptions P values) (genreReply P values) := by
  have each : ∀ value, Settles (machine S) scratch base (do
      return (value, some (← ofExcept (capitalise P value))))
      (if Spelled value then .ok (value, some (genreLabel P value)) else .error .indexError) := by
    intro value
    rw [capitalise_eq]
    split_ifs
    · exact (Gives.done _ _ _ _).settles
    · exact settles_fail _
  have send : ∀ options : List (String × Option String), Settles (machine S) scratch base
      (pure (.options options) : Handler (Response F)) (.ok (.options options)) :=
    fun options => (Gives.done _ _ _ _).settles
  have all := (Settles.mapM each values).andThen send
  rw [mapM_ite fun _ => rfl] at all
  rw [genreReply]
  split_ifs at all ⊢
  · exact all
  · exact all

section Typed
variable {P} {typed : String} {args : String → Option String}

theorem typedWords_ne_nil : typedWords P typed ≠ [] := by
  simp [typedWords, List.splitOnP_ne_nil]

theorem autocomplete_of_terms (terms : args "terms" = some (typedQuery typed))
    (fresh : ∀ word ∈ typedWords P typed, word ∉ scratch) (db : MusicDb S) (history : List Job)
    (fuel : ℕ) (tape : Tape) :
    (∃ word ∈ typedWords P typed, ¬ Lists (db.store word)) ∧
        alone P ⟨⟨.autocomplete, args⟩, fuel, tape⟩ (served P history db.store) = .error .responseError ∨
      (∀ word ∈ typedWords P typed, Lists (db.store word)) ∧ ∃ values,
        Answers ((typedWords P typed).map fun word => sourceAt (db.store word)) 21 values ∧
          alone P ⟨⟨.autocomplete, args⟩, fuel, tape⟩ (served P history db.store) =
            .ok (namedOptions db values) := by
  have script : serve P fuel ⟨.autocomplete, args⟩ = (do
      let _ ← Handler.zinterstore "artistsearch" (typedWords P typed)
      artistOptions (← Handler.zrevrange "artistsearch" 0 20)) := by
    simp [serve, autocomplete, arg, terms, Handler.ofOption, searchWords_typedQuery]
  have scratched : "artistsearch" ∈ scratch := by decide
  obtain ⟨after, ran, -⟩ := settles_lookup scratched fresh
    (fun values => (gives_artistOptions (F := F) db values).settles) _ (served_agreeOff P history db.store) tape
  rw [alone, script, ran]
  exact search_result typedWords_ne_nil fun values => .ok (namedOptions db values)

theorem genreSearch_of_terms (terms : args "terms" = some (typedQuery typed)) (db : MusicDb S)
    (history : List Job) (fuel : ℕ) (tape : Tape) :
    (∃ word ∈ typedWords P typed, ¬ Lists (db.store (termMatcherKey word))) ∧
        alone P ⟨⟨.genresearch, args⟩, fuel, tape⟩ (served P history db.store) = .error .responseError ∨
      (∀ word ∈ typedWords P typed, Lists (db.store (termMatcherKey word))) ∧ ∃ values,
        Answers ((typedWords P typed).map fun word => sourceAt (db.store (termMatcherKey word))) 21 values ∧
          alone P ⟨⟨.genresearch, args⟩, fuel, tape⟩ (served P history db.store) = genreReply P values := by
  have script : serve P fuel ⟨.genresearch, args⟩ = (do
      let _ ← Handler.zinterstore "genresearch" ((typedWords P typed).map termMatcherKey)
      genreOptions P (← Handler.zrevrange "genresearch" 0 20)) := by
    simp [serve, genreSearch, arg, terms, Handler.ofOption, searchWords_typedQuery]
  have scratched : "genresearch" ∈ scratch := by decide
  have fresh : ∀ key ∈ (typedWords P typed).map termMatcherKey, key ∉ scratch := by
    intro key member
    obtain ⟨word, -, rfl⟩ := List.mem_map.mp member
    exact termMatcherKey_not_scratch word
  obtain ⟨after, ran, -⟩ := settles_lookup scratched fresh (settles_genreOptions P) _
    (served_agreeOff P history db.store) tape
  have some : (typedWords P typed).map termMatcherKey ≠ [] :=
    mt List.map_eq_nil_iff.mp typedWords_ne_nil
  have result := @search_result S _ db.store _ _ some (genreReply (F := F) P)
  simp only [List.mem_map, exists_exists_and_eq_and, forall_exists_index, and_imp,
    forall_apply_eq_imp_iff₂, List.map_map] at result
  rw [alone, script, ran]
  exact result

end Typed

end Routes

end Replies

end Phonograph.Server.Search
