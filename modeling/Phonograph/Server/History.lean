import Mathlib
import Phonograph.Server.Footprints

/-! # Earlier requests

A request leaves behind nothing but scratch keys.  So a response depends on the
requests served before exactly when the request is an artist search one of
whose words is the name of a scratch key: such a search reads what another
request has left there. -/

set_option autoImplicit false

namespace Phonograph.Server.History

open Phonograph.Lib Phonograph.Server.Redis Phonograph.Server.Python
open Phonograph.Server.Database Phonograph.Server.Igrapher Phonograph.Server.Routes
open Phonograph.Server.Footprints

variable {F S : Type} [Score S] (P : Platform F)

theorem alone_served {request : Request} (unnamed : ¬ NamesScratch P request)
    (history : List Job) (db : Store S) (fuel : ℕ) (tape : Tape) :
    alone P ⟨request, fuel, tape⟩ (served P history db) = alone P ⟨request, fuel, tape⟩ db := by
  refine run_congr (machine S) (serve_reads P fuel request unnamed) tape _ _ fun key own => ?_
  exact served_agreeOff P history db key fun scratched => Set.notMem_empty key (own scratched)

/-! ## A search that reads a scratch key

`probe` is a word longer than the words searched for; under each of them the
database lists one artist of that name. -/

section Probe
variable (words : List String)

def probe : String := String.ofList (List.replicate ((words.map String.length).sum + 1) 'z')

theorem length_probe : (probe words).length = (words.map String.length).sum + 1 := by
  simp [probe]

theorem probe_letters : ∀ c ∈ (probe words).toList, c = 'z' := by
  simp [probe]

theorem long_not_mem (pre post : String) : pre ++ probe words ++ post ∉ words := by
  intro member
  have short : (pre ++ probe words ++ post).length ≤ (words.map String.length).sum :=
    List.single_le_sum (by simp) _ (List.mem_map_of_mem member)
  rw [String.length_append, String.length_append, length_probe] at short
  omega

def solo (artist : String) : ZSet S := ⟨[(artist, 1)], by simp⟩

def couple : ZSet S := ⟨[(probe words, 1), (probe words ++ "z", 1)], by
  have differ : probe words ≠ probe words ++ "z" := fun same => by
    have lengths := congrArg String.length same
    rw [String.length_append] at lengths
    exact absurd lengths (by simp)
  simpa using differ⟩

def probeDb : Store S := fun key =>
  if key ∈ words then some (.zset (solo (probe words)))
  else if key = termArtistsKey (probe words) then some (.zset (couple words))
  else none

theorem asSource_probeDb (key : String) :
    asSource (probeDb (S := S) words key) = .ok (zsetAt (probeDb words key)) := by
  unfold probeDb
  split
  · rfl
  · split
    · rfl
    · rfl

theorem probeDb_absent {key : String} (fresh : key ∉ words)
    (other : key ≠ termArtistsKey (probe words)) : probeDb (S := S) words key = none := by
  rw [probeDb, if_neg fresh, if_neg other]

end Probe

/-! ## Emptying a scratch key -/

theorem interKeys_absent {store : Store S} {keys : List String} {sourceAt : String → ZSet S}
    (sources : ∀ key ∈ keys, asSource (store key) = .ok (sourceAt key))
    {key : String} (member : key ∈ keys) (absent : (sourceAt key).entries = []) :
    ∃ z, interKeys keys store = .ok z ∧ z.entries = [] := by
  obtain ⟨z, found, members⟩ := interKeys_ok (List.ne_nil_of_mem member) sources
  refine ⟨z, found, List.eq_nil_iff_forall_not_mem.mpr fun e inside => ?_⟩
  have common := (members e.1).mp (List.mem_map_of_mem inside) key member
  rw [ZSet.members, absent] at common
  cases common

omit [Score S] in
theorem stored_empty {z : ZSet S} (empty : z.entries = []) : z.stored = none := by
  rw [ZSet.stored, if_pos empty]

theorem lookup_empties {α : Type} {store : Store S} {key : String} {keys : List String}
    {z : ZSet S} (found : interKeys keys store = .ok z) (empty : z.entries = [])
    {rest : List String → Handler α} (h : ∀ values, Tame (rest values)) (start stop : ℤ)
    (tape : Tape) :
    (run (machine S) (do
      let _ ← Handler.zinterstore key keys
      rest (← Handler.zrevrange key start stop)) tape store).2.2 key = none := by
  rw [run_lookup found, stored_empty empty,
    run_agreeOff (machine S) ((h _).writes ∅) _ _ key (Set.notMem_empty key), Function.update_self]

/-- A request that finds nothing and so deletes the scratch key of its route. -/
def wipe (words : List String) (key : String) : Request :=
  if key = "pair" then ⟨.termsubgraph, fun name => [("term", probe words), ("size", "1")].lookup name⟩
  else if key = "edgelookup" then
    ⟨.edgeLookup, fun name => [("seed", probe words ++ "," ++ probe words)].lookup name⟩
  else if key = "artistsearch" then ⟨.autocomplete, fun name => [("terms", probe words)].lookup name⟩
  else ⟨.genresearch, fun name => [("terms", probe words)].lookup name⟩

section Wipe
variable (words : List String)

theorem comma_not_mem_probe : ',' ∉ (probe words).toList :=
  fun comma => absurd (probe_letters words _ comma) (by decide)

theorem lower_probe : P.lower (probe words) = probe words :=
  P.lower_fixes _ fun c member => by
    rw [probe_letters words c member]
    decide

/-- A lookup one of whose keys is absent from the database deletes its scratch key. -/
theorem lookup_wipes {α : Type} {key : String} {keys : List String} {start stop : ℤ}
    (rest : List String → Handler α) (h : ∀ values, Tame (rest values)) (tape : Tape)
    {absent : String} (member : absent ∈ keys) (missing : probeDb (S := S) words absent = none) :
    (run (machine S) (do
      let _ ← Handler.zinterstore key keys
      rest (← Handler.zrevrange key start stop)) tape (probeDb words)).2.2 key = none := by
  obtain ⟨z, found, empty⟩ := interKeys_absent (fun key _ => asSource_probeDb (S := S) words key)
    member (by rw [missing]; rfl)
  exact lookup_empties found empty h start stop tape

theorem missing_key {key : String} (long : key ∉ words) (mark : key.toList[5]? ≠ some 'a') :
    probeDb (S := S) words key = none := by
  refine probeDb_absent words long fun same => mark ?_
  have prefixed : termArtistsKey (probe words) = "term.artists:" ++ probe words := rfl
  rw [same, prefixed, String.toList_append, List.getElem?_append_left (by decide)]
  decide

theorem missing_prefixed {pre name : String} (long : pre ++ name ∉ words)
    (room : 5 < pre.toList.length) (mark : pre.toList[5]? ≠ some 'a') :
    probeDb (S := S) words (pre ++ name) = none := by
  apply missing_key words long
  rwa [String.toList_append, List.getElem?_append_left room]

theorem missing_tracks (post : String) :
    probeDb (S := S) words (tracksKey (probe words ++ post)) = none := by
  have long : "artist.tracks:" ++ (probe words ++ post) ∉ words := by
    rw [← String.append_assoc]
    exact long_not_mem words _ _
  exact missing_prefixed words long (by decide) (by decide)

theorem missing_probe : probeDb (S := S) words (probe words) = none := by
  refine missing_key words ?_ fun found => ?_
  · simpa using long_not_mem words "" ""
  · exact absurd (probe_letters words _ (List.mem_of_getElem? found)) (by decide)

theorem missing_matcher : probeDb (S := S) words (termMatcherKey (probe words)) = none := by
  have long : "term.matcher:" ++ probe words ∉ words := by
    simpa using long_not_mem words "term.matcher:" ""
  exact missing_prefixed words long (by decide) (by decide)

theorem edgeLookup_wipes (tape : Tape) :
    (run (machine S) (serve P 0 (wipe words "edgelookup")) tape (probeDb words)).2.2
      "edgelookup" = none := by
  have script : serve P 0 (wipe words "edgelookup") = (do
      let _ ← Handler.zinterstore "edgelookup" [tracksKey (probe words), tracksKey (probe words)]
      edgeTracks P (← Handler.zrevrange "edgelookup" 0 (-1))) := by
    simp [serve, wipe, edgeLookup, arg, Handler.ofOption,
      split_comma (comma_not_mem_probe words) (comma_not_mem_probe words)]
  rw [script]
  exact lookup_wipes words _ (tame_edgeTracks P) tape List.mem_cons_self
    (by simpa using missing_tracks words "")

theorem autocomplete_wipes (tape : Tape) :
    (run (machine S) (serve P 0 (wipe words "artistsearch")) tape (probeDb words)).2.2
      "artistsearch" = none := by
  have script : serve P 0 (wipe words "artistsearch") = (do
      let _ ← Handler.zinterstore "artistsearch" [probe words]
      artistOptions (← Handler.zrevrange "artistsearch" 0 20)) := by
    simp [serve, wipe, autocomplete, arg, Handler.ofOption, searchWords,
      split_of_notMem (comma_not_mem_probe words), lower_probe]
  rw [script]
  exact lookup_wipes words _ tame_artistOptions tape List.mem_cons_self (missing_probe words)

theorem genreSearch_wipes (tape : Tape) :
    (run (machine S) (serve P 0 (wipe words "genresearch")) tape (probeDb words)).2.2
      "genresearch" = none := by
  have script : serve P 0 (wipe words "genresearch") = (do
      let _ ← Handler.zinterstore "genresearch" [termMatcherKey (probe words)]
      genreOptions P (← Handler.zrevrange "genresearch" 0 20)) := by
    simp [serve, wipe, genreSearch, arg, Handler.ofOption, searchWords,
      split_of_notMem (comma_not_mem_probe words), lower_probe]
  rw [script]
  exact lookup_wipes words _ (tame_genreOptions P) tape List.mem_cons_self (missing_matcher words)

theorem revSorted_couple : ∃ post post' : String, (couple (S := S) words).revSorted =
    [probe words ++ post, probe words ++ post'] := by
  have perm := perm_revSorted (couple (S := S) words)
  obtain ⟨x, y, pair⟩ := List.length_eq_two.mp perm.length_eq
  have shape : ∀ artist ∈ (couple (S := S) words).revSorted, ∃ post, artist = probe words ++ post := by
    intro artist member
    have listed : artist ∈ [probe words, probe words ++ "z"] := perm.mem_iff.mp member
    rcases List.mem_pair.mp listed with rfl | rfl
    · exact ⟨"", by simp⟩
    · exact ⟨"z", rfl⟩
  obtain ⟨post, rfl⟩ := shape x (by simp [pair])
  obtain ⟨post', rfl⟩ := shape y (by simp [pair])
  exact ⟨post, post', pair⟩

theorem zrevrange_couple : ∃ post post' : String,
    exec (.zrevrange (termArtistsKey (probe words)) 0 3) (probeDb (S := S) words) =
      .ok ([probe words ++ post, probe words ++ post'], probeDb words) := by
  obtain ⟨post, post', pair⟩ := revSorted_couple (S := S) words
  have long : "term.artists:" ++ probe words ∉ words := by
    simpa using long_not_mem words "term.artists:" ""
  have known : probeDb (S := S) words (termArtistsKey (probe words)) = some (.zset (couple words)) := by
    unfold probeDb
    rw [if_neg (show termArtistsKey (probe words) ∉ words from long), if_pos rfl]
  refine ⟨post, post', ?_⟩
  rw [exec, known, zrevrangeOf, pair]
  rfl

theorem collectPair_wipes {α : Type} (acc : Collected) (rest : Collected → Handler α)
    (h : ∀ acc, Tame (rest acc)) (post post' : String) (tape : Tape) :
    (run (machine S) (collectPair P acc (probe words ++ post, probe words ++ post') >>= rest) tape
      (probeDb words)).2.2 "pair" = none := by
  rw [collectPair, bind_assoc]
  simp only [bind_assoc]
  refine lookup_wipes words (fun edgetracks => addLink P acc _ edgetracks >>= rest)
    (fun edgetracks => (tame_addLink P acc _ edgetracks).bind h) tape List.mem_cons_self ?_
  exact missing_tracks words post

theorem termSubgraph_wipes (tape : Tape) :
    (run (machine S) (serve P 0 (wipe words "pair")) tape (probeDb words)).2.2 "pair" = none := by
  obtain ⟨post, post', reply⟩ := zrevrange_couple (S := S) words
  have size : int "1" = some 1 := by decide +kernel
  have script : serve P 0 (wipe words "pair") =
      .call (.zrevrange (termArtistsKey (probe words)) 0 3) fun results => do
        let acc ← (pairs results).foldlM (collectPair P) ⟨[], [], [], ∅⟩
        let g := assemble results acc
        let deg := ((List.range g.vs.length).map fun v => (v, g.degree v)).insertionSort
          fun a b => a.2 ≤ b.2
        let g := g.deleteVertices ((sliceTo ((results.length : ℤ) - 1) deg).map Prod.fst)
        return .graph (← d3Dictify P g none) := by
    simp [serve, wipe, termSubgraph, arg, intArg, Handler.ofOption, List.lookup, size, igrapher,
      Handler.zrevrange]
  rw [script, run_call]
  simp only [machine, reply]
  simp only [pairs, List.map_cons, List.map_nil, List.append_nil, List.foldlM_cons, List.foldlM_nil,
    bind_assoc, pure_bind]
  refine collectPair_wipes P words _ _ (fun acc => ?_) post post' tape
  exact (tame_d3Dictify P _ _).bind fun _ => trivial

theorem wipe_empties {key : String} (scratched : key ∈ scratch) (tape : Tape) :
    (run (machine S) (serve P 0 (wipe words key)) tape (probeDb words)).2.2 key = none := by
  have listed : key ∈ ["pair", "edgelookup", "artistsearch", "genresearch"] := scratched
  simp only [List.mem_cons, List.not_mem_nil, or_false] at listed
  rcases listed with rfl | rfl | rfl | rfl
  · exact termSubgraph_wipes P words tape
  · exact edgeLookup_wipes P words tape
  · exact autocomplete_wipes P words tape
  · exact genreSearch_wipes P words tape

theorem scratchOf_wipe {key : String} (scratched : key ∈ scratch) :
    scratchOf (wipe words key).route = {key} := by
  have listed : key ∈ ["pair", "edgelookup", "artistsearch", "genresearch"] := scratched
  simp only [List.mem_cons, List.not_mem_nil, or_false] at listed
  rcases listed with rfl | rfl | rfl | rfl <;> rfl

theorem served_wipe {key : String} (scratched : key ∈ scratch) (tape : Tape) :
    served P [⟨wipe words key, 0, tape⟩] (probeDb (S := S) words) =
      Function.update (probeDb words) key none := by
  funext other
  by_cases same : other = key
  · subst same
    rw [Function.update_self]
    exact wipe_empties P words scratched tape
  · rw [Function.update_of_ne same]
    refine run_agreeOff (machine S) (serve_writes P 0 (wipe words key)) tape _ other ?_
    rwa [scratchOf_wipe words scratched]

end Wipe

/-! ## The exact condition -/

section Search
variable {P} {query : String} {args : String → Option String}

variable (P query) in
theorem searchWords_ne_nil : searchWords P query ≠ [] := by
  simp [searchWords, split, List.splitOn_ne_nil]

theorem alone_autocomplete (terms : args "terms" = some query) {store : Store S} {z : ZSet S}
    (found : interKeys (searchWords P query) store = .ok z) (fuel : ℕ) (tape : Tape) :
    alone P ⟨⟨.autocomplete, args⟩, fuel, tape⟩ store =
      (run (machine S) (artistOptions (range 0 20 z.revSorted) : Handler (Response F)) tape
        (Function.update store "artistsearch" z.stored)).1 := by
  have script : serve P fuel ⟨.autocomplete, args⟩ = (do
      let _ ← Handler.zinterstore "artistsearch" (searchWords P query)
      artistOptions (← Handler.zrevrange "artistsearch" 0 20)) := by
    simp [serve, autocomplete, arg, terms, Handler.ofOption]
  rw [alone, script, run_lookup found]

theorem members_probeDb (words : List String) {word : String} (member : word ∈ words) :
    (zsetAt (probeDb (S := S) words word)).members = [probe words] := by
  rw [probeDb, if_pos member]
  rfl

theorem alone_probeDb (terms : args "terms" = some query) (fuel : ℕ) (tape : Tape) :
    alone P ⟨⟨.autocomplete, args⟩, fuel, tape⟩ (probeDb (S := S) (searchWords P query)) =
      .ok (.options [(probe (searchWords P query), none)]) := by
  obtain ⟨z, found, members⟩ := interKeys_ok (searchWords_ne_nil P query)
    fun key _ => asSource_probeDb (S := S) (searchWords P query) key
  rw [alone_autocomplete terms found]
  obtain ⟨first, listed⟩ := List.exists_mem_of_ne_nil _ (searchWords_ne_nil P query)
  generalize searchWords P query = words at *
  have one : z.revSorted = [probe words] := by
    have same : z.members.Perm [probe words] := by
      refine (List.perm_ext_iff_of_nodup z.nodup (by simp)).mpr fun artist => ?_
      rw [List.mem_singleton]
      exact ⟨fun inside => by
          simpa [members_probeDb words listed] using (members artist).mp inside first listed,
        fun here => (members artist).mpr fun key member => by
          simp [members_probeDb words member, here]⟩
    exact List.perm_singleton.mp ((perm_revSorted z).trans same)
  have info : Function.update (probeDb (S := S) words) "artistsearch" z.stored
      (artistInfoKey (probe words)) = none := by
    have clean : artistInfoKey (probe words) ≠ "artistsearch" := fun same =>
      artistInfoKey_not_scratch (probe words) (by rw [same]; decide)
    rw [Function.update_of_ne clean]
    have long : "artist.info:" ++ probe words ∉ words := by
      simpa using long_not_mem words "artist.info:" ""
    exact missing_prefixed words long (by decide) (by decide)
  have listed : range 0 20 [probe words] = [probe words] := rfl
  rw [one, listed]
  simp [artistOptions, Handler.hget, run_call, machine, exec, info, hgetallOf, Except.map]

theorem alone_wiped {word : String} (terms : args "terms" = some query)
    (named : word ∈ searchWords P query) (fuel : ℕ) (tape : Tape) :
    alone P ⟨⟨.autocomplete, args⟩, fuel, tape⟩
      (Function.update (probeDb (S := S) (searchWords P query)) word none) = .ok (.options []) := by
  have sources : ∀ key ∈ searchWords P query,
      asSource (Function.update (probeDb (S := S) (searchWords P query)) word none key) =
        .ok (zsetAt (Function.update (probeDb (searchWords P query)) word none key)) := by
    intro key _
    by_cases same : key = word
    · rw [same, Function.update_self]
      rfl
    · rw [Function.update_of_ne same]
      exact asSource_probeDb _ key
  obtain ⟨z, found, empty⟩ := interKeys_absent sources named (by rw [Function.update_self]; rfl)
  have none : range 0 20 z.revSorted = [] := by
    rw [ZSet.revSorted, empty]
    rfl
  rw [alone_autocomplete terms found, none]
  rfl

end Search

/-- The response to a request is the same after every history of requests, on
every database, exactly when it is no artist search for the name of a scratch
key. -/
theorem alone_served_iff (request : Request) :
    (∀ (db : Store S) (history : List Job) (fuel : ℕ) (tape : Tape),
      alone P ⟨request, fuel, tape⟩ (served P history db) = alone P ⟨request, fuel, tape⟩ db) ↔
    ¬ NamesScratch P request := by
  refine ⟨?_, fun unnamed db history fuel tape => alone_served P unnamed history db fuel tape⟩
  rintro same ⟨route, query, terms, word, named, scratched⟩
  obtain ⟨_, args⟩ := request
  subst route
  have differ := same (probeDb (searchWords P query))
    [⟨wipe (searchWords P query) word, 0, fun _ => 0⟩] 0 fun _ => 0
  rw [served_wipe P _ scratched, alone_wiped terms named, alone_probeDb terms] at differ
  cases differ

def indexedDb : MusicDb ℤ := .ofEntries (("pair", .zset ⟨[("a", 1)], by decide⟩) :: rowEntries)
  (by decide) (by decide) (by decide) (by decide) (by decide)

/-- After a term subgraph, a search for `pair` answers with a track instead of the artist. -/
theorem alone_served_ne :
    ¬ ∀ (db : MusicDb ℤ) (history : List Job) (job : Job),
      alone Platform.plain job (served Platform.plain history db.store) =
        alone Platform.plain job db.store := by
  intro always
  have same := always indexedDb
    [⟨⟨.termsubgraph, fun name => [("term", "row"), ("size", "2")].lookup name⟩, 0, fun _ => 0⟩]
    ⟨⟨.autocomplete, fun name => [("terms", "Pair")].lookup name⟩, 0, fun _ => 0⟩
  revert same
  decide +kernel

end Phonograph.Server.History
