import Phonograph.Server.Routes

/-! # Which keys the handlers touch

Everything but the four intersections reads prefixed keys only and writes
nothing.  `igrapher` and the three lookups write one scratch key each and read
it back at once.  So every request writes scratch keys only, and every request
but an artist search for a word that is itself a scratch key reads no scratch
key it has not written. -/

set_option autoImplicit false

namespace Phonograph.Server.Footprints

open Phonograph.Lib Phonograph.Server.Redis Phonograph.Server.Python
open Phonograph.Server.Database Phonograph.Server.Paths Phonograph.Server.Igrapher
open Phonograph.Server.Routes

variable {F : Type} {α β : Type}

def ReadsRecords (command : Cmd) : Prop :=
  (∀ key ∈ command.reads, key ∉ scratch) ∧ command.writes = ∅

abbrev Tame (handler : Handler α) : Prop := handler.Calls ReadsRecords

/-! ## Handlers that only read records -/

private theorem tame_read {command : Cmd} {key : String} (reads : command.reads = {key})
    (writes : command.writes = ∅) (fresh : key ∉ scratch) :
    Tame (.call command .done : Handler command.Reply) :=
  ⟨⟨fun other member => by rw [reads] at member; exact member ▸ fresh, writes⟩, fun _ => trivial⟩

theorem tame_smembers {key : String} (fresh : key ∉ scratch) : Tame (Handler.smembers key) :=
  tame_read rfl rfl fresh

theorem tame_hget {key : String} (field : String) (fresh : key ∉ scratch) :
    Tame (Handler.hget key field) :=
  tame_read rfl rfl fresh

theorem tame_hgetall {key : String} (fresh : key ∉ scratch) : Tame (Handler.hgetall key) :=
  tame_read rfl rfl fresh

theorem tame_zrevrange {key : String} (start stop : ℤ) (fresh : key ∉ scratch) :
    Tame (Handler.zrevrange key start stop) :=
  tame_read rfl rfl fresh

theorem tame_ofOption (error : PyErr) (x : Option α) : Tame (Handler.ofOption error x) := by
  cases x <;> trivial

theorem tame_ofExcept (x : Except PyErr α) : Tame (ofExcept x) := by
  cases x <;> trivial

theorem tame_choice (xs : List α) : Tame (Handler.choice xs) :=
  fun _ => tame_ofOption _ _

theorem tame_shuffle : ∀ (fuel : ℕ) (xs : List α), Tame (Handler.shuffle fuel xs) := by
  intro fuel
  induction fuel with
  | zero => intro xs; trivial
  | succ fuel ih =>
      intro xs
      cases xs with
      | nil => trivial
      | cons x rest => exact fun n => (ih _).bind fun _ => trivial

theorem tame_ite {c : Prop} [Decidable c] {first second : Handler α} (h : Tame first)
    (h' : Tame second) : Tame (if c then first else second) := by
  split
  · exact h
  · exact h'

theorem tame_filterM {body : α → Handler Bool} (each : ∀ x, Tame (body x)) (xs : List α) :
    Tame (xs.filterM body) := by
  have aux : ∀ xs acc : List α, Tame (xs.filterAuxM body acc) := by
    intro xs
    induction xs with
    | nil => intro acc; trivial
    | cons x xs ih => intro acc; exact (each x).bind fun _ => ih _
  exact (aux xs []).bind fun _ => trivial

section Paths
variable (P : Platform F)

theorem tame_extend (distances : Distances) (visited : List String) (c : ℕ) :
    Tame (extend P distances visited c) := by
  refine (tame_ofExcept _).bind fun level => Script.Calls.bind ?_ fun _ => trivial
  refine Script.Calls.foldlM (fun next node => ?_) _ _
  exact (tame_smembers (neighboursKey_not_scratch node)).bind fun _ => trivial

theorem tame_searchLevels (j : String) : ∀ (left : ℕ) (distances : Distances)
    (visited : List String) (c : ℕ), Tame (searchLevels P j left distances visited c) := by
  intro left
  induction left with
  | zero =>
      intro distances visited c
      rw [searchLevels]
      exact (tame_ofExcept _).bind fun level => tame_ite trivial trivial
  | succ left ih =>
      intro distances visited c
      rw [searchLevels]
      refine (tame_ofExcept _).bind fun level => tame_ite trivial ?_
      exact (tame_extend P _ _ _).bind fun _ => ih _ _ _

theorem tame_findPaths (i j : String) : Tame (findPaths P i j) := by
  refine (tame_searchLevels P j _ _ _ _).bind fun found => ?_
  cases found with
  | none => trivial
  | some found =>
      exact (tame_ofExcept _).bind fun _ => (tame_ofExcept _).bind fun _ =>
        (tame_ofExcept _).bind fun _ => trivial

theorem tame_dijkstra (i : String) (level : ℤ) : Tame (dijkstra P i level) := by
  have levels : ∀ (left : ℕ) (distances : Distances) (visited : List String) (c : ℕ),
      Tame (dijkstraLevels P left distances visited c) := by
    intro left
    induction left with
    | zero => intro distances visited c; trivial
    | succ left ih =>
        intro distances visited c
        exact (tame_ofExcept _).bind fun _ => (tame_extend P _ _ _).bind fun _ => ih _ _ _
  exact levels _ _ _ _

end Paths

section Parts
variable (P : Platform F)

theorem tame_artistNames (artists : List String) (nameMap : NameMap) :
    Tame (artistNames artists nameMap) := by
  refine Script.Calls.foldlM (fun acc artist => ?_) _ _
  unfold artistName
  cases acc.2.lookup artist with
  | some name => trivial
  | none => exact (tame_hget _ (artistInfoKey_not_scratch artist)).bind fun _ => trivial

theorem tame_d3Dictify (g : Graph) (origin : Option String) : Tame (d3Dictify P g origin) := by
  intro seed
  refine Script.Calls.bind (Script.Calls.mapM (fun v => ?_) _) fun _ => trivial
  refine (tame_hgetall (artistInfoKey_not_scratch v.1)).bind fun info => ?_
  exact (tame_ofOption _ _).bind fun _ => (tame_ofOption _ _).bind fun _ =>
    (tame_ofOption _ _).bind fun _ => trivial

theorem tame_arg (args : String → Option String) (name : String) : Tame (arg args name) :=
  tame_ofOption _ _

theorem tame_intArg (args : String → Option String) (name : String) : Tame (intArg args name) :=
  (tame_arg args name).bind fun _ => tame_ofOption _ _

theorem tame_intPopularity (artist : String) : Tame (intPopularity artist) := by
  refine (tame_hget _ (artistInfoKey_not_scratch artist)).bind fun _ => ?_
  exact (tame_ofOption _ _).bind fun _ => tame_ofOption _ _

theorem tame_popularIf (a : Bool) (artist : String) : Tame (popularIf a artist) :=
  tame_ite ((tame_intPopularity artist).bind fun _ => trivial) trivial

theorem tame_randomOrigin (fuel : ℕ) : Tame (randomOrigin fuel) := by
  have loop : ∀ (fuel : ℕ) (term origin : String), Tame (randomOriginLoop term origin fuel) := by
    intro fuel
    induction fuel with
    | zero => intro term origin; trivial
    | succ fuel ih =>
        intro term origin
        refine (tame_smembers (neighboursKey_not_scratch origin)).bind fun neighbours => ?_
        refine (tame_popularIf _ origin).bind fun known => tame_ite trivial ?_
        exact (tame_zrevrange _ _ (termArtistsKey_not_scratch term)).bind fun _ =>
          (tame_choice _).bind fun _ => ih _ _
  refine (tame_choice _).bind fun term => ?_
  exact (tame_zrevrange _ _ (termArtistsKey_not_scratch term)).bind fun _ =>
    (tame_choice _).bind fun _ => loop _ _ _

theorem tame_genreNeighbours (origin : String) (genre : Option String) :
    Tame (genreNeighbours P origin genre) := by
  refine (tame_smembers (neighboursKey_not_scratch origin)).bind fun members => ?_
  refine tame_ite trivial (tame_filterM (fun n => ?_) _)
  exact (tame_hget _ (artistInfoKey_not_scratch n)).bind fun _ => trivial

theorem tame_genreOrigin (genre : String) (fuel : ℕ) : Tame (genreOrigin P genre fuel) := by
  have loop : ∀ (fuel : ℕ) (topArtists : List String) (origin : String) (gn : List String),
      Tame (genreOriginLoop P genre topArtists origin gn fuel) := by
    intro fuel
    induction fuel with
    | zero => intro topArtists origin gn; trivial
    | succ fuel ih =>
        intro topArtists origin gn
        have stored : ∀ a, Tame (genreIf a origin) := fun a =>
          tame_ite (tame_hget _ (artistInfoKey_not_scratch origin)) trivial
        refine (stored _).bind fun _ => (tame_popularIf _ origin).bind fun _ => tame_ite trivial ?_
        exact (tame_choice _).bind fun _ => (tame_genreNeighbours P _ _).bind fun _ => ih _ _ _
  refine (tame_zrevrange _ _ (termArtistsKey_not_scratch genre)).bind fun _ => ?_
  exact (tame_choice _).bind fun _ => (tame_genreNeighbours P _ _).bind fun _ => loop _ _ _ _

theorem tame_originFor (fuel : ℕ) (origin : String) (genre : Option String) :
    Tame (originFor P fuel origin genre) := by
  refine tame_ite ?_ trivial
  cases genre with
  | none => exact tame_randomOrigin fuel
  | some genre => exact tame_genreOrigin P genre fuel

theorem tame_neighbourhoodLoop (genre : Option String) (size : ℤ) : ∀ (fuel : ℕ)
    (currentstep : Scores) (neighbourhood visited : List String),
    Tame (neighbourhoodLoop P genre size fuel currentstep neighbourhood visited) := by
  intro fuel
  induction fuel with
  | zero => intro currentstep neighbourhood visited; trivial
  | succ fuel ih =>
      intro currentstep neighbourhood visited
      refine tame_ite (Script.Calls.bind ?_ fun _ => tame_ite trivial (ih _ _ _)) trivial
      refine Script.Calls.foldlM (fun next e => ?_) _ _
      exact (tame_genreNeighbours P _ _).bind fun _ => trivial

theorem tame_zoomRound (origin : String) (size level : ℤ) (s : ZoomState) :
    Tame (zoomRound P origin size level s) := by
  have sampled : ∀ (distances : Distances) (c : ℕ), Tame (sampleLevel P distances c) :=
    fun _ _ => (tame_ofExcept _).bind fun _ => tame_shuffle _ _
  refine (tame_ofExcept _).bind fun swept => tame_ite trivial (tame_ite ?_ ?_)
  · exact (sampled _ _).bind fun _ => trivial
  · exact (tame_dijkstra P _ _).bind fun _ => (sampled _ _).bind fun _ => trivial

theorem tame_zoomLoop (origin : String) (size level : ℤ) : ∀ (fuel : ℕ) (s : ZoomState),
    Tame (zoomLoop P origin size level fuel s) := by
  intro fuel
  induction fuel with
  | zero => intro s; trivial
  | succ fuel ih =>
      intro s
      exact tame_ite ((tame_zoomRound P _ _ _ _).bind fun _ => ih _) trivial

theorem tame_zoomStart (origin : String) (level : ℤ) : Tame (zoomStart P origin level) := by
  refine (tame_dijkstra P _ _).bind fun _ => (tame_ofExcept _).bind fun _ => ?_
  refine Script.Calls.bind ?_ fun _ => (tame_shuffle _ _).bind fun _ => trivial
  refine Script.Calls.bind (Script.Calls.mapM (fun x => ?_) _) fun _ => trivial
  exact (tame_hget _ (artistInfoKey_not_scratch x)).bind fun _ => trivial

theorem tame_customStart (core : List String) : Tame (customStart P core) := by
  refine Script.Calls.foldlM (fun acc pair => (tame_findPaths P _ _).bind fun found => ?_) _ _
  cases found with
  | none => trivial
  | some paths => cases paths <;> trivial

theorem tame_customLoop (pathsDict : PathsDict) (size : ℤ) (maxCount : ℕ) : ∀ (fuel counter : ℕ)
    (sortedPairs : List Pair) (skeleton : List String),
    Tame (customLoop P pathsDict size maxCount fuel counter sortedPairs skeleton) := by
  intro fuel
  induction fuel with
  | zero => intro counter sortedPairs skeleton; trivial
  | succ fuel ih =>
      intro counter sortedPairs skeleton
      exact tame_ite (tame_ite trivial (ih _ _ _)) trivial

theorem tame_edgeTrack (track : String) : Tame (edgeTrack P track) := by
  refine (tame_hgetall (trackInfoKey_not_scratch track)).bind fun _ => ?_
  refine (tame_smembers (trackArtistsKey_not_scratch track)).bind fun _ => ?_
  refine Script.Calls.bind (Script.Calls.mapM (fun a => ?_) _) fun _ => ?_
  · exact tame_hget _ (artistInfoKey_not_scratch a)
  · exact (tame_ofOption _ _).bind fun _ => (tame_ofOption _ _).bind fun _ => trivial

theorem tame_edgeTracks (trackIds : List String) : Tame (edgeTracks P trackIds) :=
  (Script.Calls.mapM (tame_edgeTrack P) trackIds).bind fun _ => trivial

theorem tame_artistOptions (values : List String) :
    Tame (artistOptions values : Handler (Response F)) := by
  refine Script.Calls.bind (Script.Calls.mapM (fun value => ?_) _) fun _ => trivial
  exact (tame_hget _ (artistInfoKey_not_scratch value)).bind fun _ => trivial

theorem tame_genreOptions (values : List String) : Tame (genreOptions P values) := by
  refine Script.Calls.bind (Script.Calls.mapM (fun value => ?_) _) fun _ => trivial
  exact (tame_ofExcept _).bind fun _ => trivial

end Parts

/-! ## Writing a scratch key and reading it back -/

section Requests
variable {S : Type} [Score S]

abbrev ReadsBack (S : Type) [Score S] (handler : Handler α) : Prop :=
  Prompt (machine S) scratch ∅ handler

theorem Tame.writes (own : Set String) {handler : Handler α} (h : Tame handler) :
    WritesOnly (machine S) own handler := by
  induction handler with
  | done value => trivial
  | fail error => trivial
  | call command next ih =>
      refine ⟨?_, fun reply => ih reply (h.2 reply)⟩
      show command.writes ⊆ own
      rw [h.1.2]
      exact Set.empty_subset _
  | draw next ih => exact fun n => ih n (h n)

theorem Tame.reads {handler : Handler α} (h : Tame handler) : ReadsBack S handler := by
  refine Prompt.of_calls (machine S) ?_ ∅
  induction handler with
  | done value => trivial
  | fail error => trivial
  | call command next ih => exact ⟨h.1.1, fun reply => ih reply (h.2 reply)⟩
  | draw next ih => exact fun n => ih n (h n)

theorem writes_lookup {key : String} {keys : List String} {start stop : ℤ}
    {rest : List String → Handler α} (h : ∀ values, Tame (rest values)) :
    WritesOnly (machine S) {key} (do
      let _ ← Handler.zinterstore key keys
      rest (← Handler.zrevrange key start stop)) :=
  ⟨subset_rfl, fun _ => ⟨Set.empty_subset _, fun values => (h values).writes {key}⟩⟩

theorem reads_lookup {key : String} {keys : List String} {start stop : ℤ}
    {rest : List String → Handler α} (unnamed : ∀ k ∈ keys, k ∉ scratch)
    (h : ∀ values, Tame (rest values)) :
    ReadsBack S (do
      let _ ← Handler.zinterstore key keys
      rest (← Handler.zrevrange key start stop)) :=
  ⟨fun k member scratched => absurd scratched (unnamed k member),
    fun _ => ⟨fun _ member _ => member, fun values =>
      Prompt.mono (machine S) (h values).reads (Set.empty_subset _)⟩⟩

theorem tracksKeys_not_scratch (a b : String) :
    ∀ k ∈ [tracksKey a, tracksKey b], k ∉ scratch := by
  intro k member
  obtain rfl | rfl : k = tracksKey a ∨ k = tracksKey b := by simpa using member
  · exact tracksKey_not_scratch a
  · exact tracksKey_not_scratch b

variable (P : Platform F)

theorem tame_addLink (acc : Collected) (pair : String × String) (edgetracks : List String) :
    Tame (addLink P acc pair edgetracks) := by
  cases edgetracks with
  | nil => trivial
  | cons track tracks =>
      refine (tame_hgetall (trackInfoKey_not_scratch track)).bind fun _ => ?_
      refine (tame_ofOption _ _).bind fun _ => (tame_ofOption _ _).bind fun _ => ?_
      refine (tame_smembers (trackArtistsKey_not_scratch track)).bind fun _ => ?_
      exact (tame_artistNames _ _).bind fun _ => trivial

structure Bounded (S : Type) [Score S] (own : Set String) (handler : Handler α) : Prop where
  writes : WritesOnly (machine S) own handler
  reads : ReadsBack S handler

theorem Tame.bounded {own : Set String} {handler : Handler α} (h : Tame handler) :
    Bounded S own handler :=
  ⟨h.writes own, h.reads⟩

theorem Bounded.bind {own : Set String} {handler : Handler α} {rest : α → Handler β}
    (first : Bounded S own handler) (second : ∀ value, Bounded S own (rest value)) :
    Bounded S own (handler >>= rest) :=
  ⟨first.writes.bind fun value => (second value).writes,
    first.reads.bind (machine S) fun value => (second value).reads⟩

theorem bounded_lookup {key : String} {keys : List String} {start stop : ℤ}
    {rest : List String → Handler α} (unnamed : ∀ k ∈ keys, k ∉ scratch)
    (h : ∀ values, Tame (rest values)) :
    Bounded S {key} (do
      let _ ← Handler.zinterstore key keys
      rest (← Handler.zrevrange key start stop)) :=
  ⟨writes_lookup h, reads_lookup unnamed h⟩

theorem bounded_igrapher (vertices : List String) : Bounded S {"pair"} (igrapher P vertices) := by
  have pair : ∀ acc pair, Bounded S {"pair"} (collectPair P acc pair) := fun acc pair =>
    bounded_lookup (tracksKeys_not_scratch pair.1 pair.2) (tame_addLink P acc pair)
  refine Bounded.bind ⟨?_, ?_⟩ fun _ => ⟨trivial, trivial⟩
  · exact Script.Calls.foldlM (fun acc p => (pair acc p).writes) _ _
  · exact Prompt.foldlM (machine S) (fun acc p => (pair acc p).reads) _ _

theorem bounded_sendGraph (vertices : List String) (origin : Option String) :
    Bounded S {"pair"} (do
      let g ← igrapher P vertices
      return Response.graph (← d3Dictify P g origin) : Handler (Response F)) :=
  (bounded_igrapher P vertices).bind fun g =>
    (tame_d3Dictify P g origin).bounded.bind fun _ => ⟨trivial, trivial⟩

variable (args : String → Option String)

theorem bounded_pathFinder : Bounded S {"pair"} (pathFinder P args) := by
  refine (tame_arg args _).bounded.bind fun i => (tame_arg args _).bounded.bind fun j => ?_
  refine (tame_findPaths P i j).bounded.bind fun paths => ?_
  split
  · refine (tame_findPaths P i j).bounded.bind fun _ => (tame_choice _).bounded.bind fun path => ?_
    exact bounded_sendGraph P path none
  · exact ⟨trivial, trivial⟩

theorem bounded_neighbourhood (fuel : ℕ) : Bounded S {"pair"} (neighbourhood P fuel args) := by
  refine (tame_intArg args _).bounded.bind fun size => (tame_arg args _).bounded.bind fun genre =>
    (tame_arg args _).bounded.bind fun origin => ?_
  refine (tame_originFor P fuel _ _).bounded.bind fun origin => ?_
  refine (tame_neighbourhoodLoop P _ _ _ _ _ _).bounded.bind fun chosen => ?_
  exact bounded_sendGraph P _ _

theorem bounded_zoom (fuel : ℕ) : Bounded S {"pair"} (zoom P fuel args) := by
  refine (tame_arg args _).bounded.bind fun origin => (tame_intArg args _).bounded.bind fun size =>
    (tame_intArg args _).bounded.bind fun level => ?_
  refine (tame_zoomStart P _ _).bounded.bind fun start => ?_
  refine (tame_zoomLoop P _ _ _ _ _).bounded.bind fun chosen => ?_
  exact bounded_sendGraph P _ _

theorem bounded_customSubgraph (fuel : ℕ) : Bounded S {"pair"} (customSubgraph P fuel args) := by
  refine (tame_intArg args _).bounded.bind fun size => (tame_arg args _).bounded.bind fun core => ?_
  refine (tame_customStart P _).bounded.bind fun start => (tame_ofOption _ _).bounded.bind fun _ => ?_
  refine (tame_customLoop P _ _ _ _ _ _ _).bounded.bind fun skeleton => ?_
  exact bounded_sendGraph P _ _

theorem bounded_termSubgraph : Bounded S {"pair"} (termSubgraph P args) := by
  refine (tame_arg args _).bounded.bind fun term => (tame_intArg args _).bounded.bind fun size => ?_
  refine (tame_zrevrange _ _ (termArtistsKey_not_scratch term)).bounded.bind fun results => ?_
  refine (bounded_igrapher P results).bind fun g => ?_
  exact (tame_d3Dictify P _ _).bounded.bind fun _ => ⟨trivial, trivial⟩

theorem bounded_edgeLookup : Bounded S {"edgelookup"} (edgeLookup P args) := by
  refine (tame_arg args _).bounded.bind fun seed => (tame_ofOption _ _).bounded.bind fun first =>
    (tame_ofOption _ _).bounded.bind fun second => ?_
  exact bounded_lookup (tracksKeys_not_scratch first second) (tame_edgeTracks P)

theorem bounded_genreSearch : Bounded S {"genresearch"} (genreSearch P args) := by
  refine (tame_arg args _).bounded.bind fun query => ?_
  refine bounded_lookup (fun k member => ?_) (tame_genreOptions P)
  obtain ⟨word, _, rfl⟩ := List.mem_map.mp member
  exact termMatcherKey_not_scratch word

/-- An artist search one of whose words is the name of a scratch key. -/
def NamesScratch (request : Request) : Prop :=
  request.route = .autocomplete ∧
    ∃ query, request.args "terms" = some query ∧ ∃ word ∈ searchWords P query, word ∈ scratch

def scratchOf : Route → Set String
  | .index => ∅
  | .path | .neighbourhood | .zoom | .custom | .termsubgraph => {"pair"}
  | .edgeLookup => {"edgelookup"}
  | .autocomplete => {"artistsearch"}
  | .genresearch => {"genresearch"}

theorem scratchOf_subset (route : Route) : scratchOf route ⊆ scratch := by
  cases route <;> simp only [scratchOf, Set.empty_subset, Set.singleton_subset_iff] <;> decide

theorem serve_writes (fuel : ℕ) (request : Request) :
    WritesOnly (machine S) (scratchOf request.route) (serve P fuel request) := by
  unfold serve
  cases request.route with
  | index => trivial
  | path => exact (bounded_pathFinder P _).writes
  | neighbourhood => exact (bounded_neighbourhood P _ fuel).writes
  | zoom => exact (bounded_zoom P _ fuel).writes
  | custom => exact (bounded_customSubgraph P _ fuel).writes
  | edgeLookup => exact (bounded_edgeLookup P _).writes
  | genresearch => exact (bounded_genreSearch P _).writes
  | termsubgraph => exact (bounded_termSubgraph P _).writes
  | autocomplete =>
      refine ((tame_arg _ _).writes _).bind fun query => ?_
      exact writes_lookup tame_artistOptions

theorem serve_reads (fuel : ℕ) (request : Request) (unnamed : ¬ NamesScratch P request) :
    ReadsBack S (serve P fuel request) := by
  unfold serve
  cases route : request.route with
  | index => trivial
  | path => exact (bounded_pathFinder P _).reads
  | neighbourhood => exact (bounded_neighbourhood P _ fuel).reads
  | zoom => exact (bounded_zoom P _ fuel).reads
  | custom => exact (bounded_customSubgraph P _ fuel).reads
  | edgeLookup => exact (bounded_edgeLookup P _).reads
  | genresearch => exact (bounded_genreSearch P _).reads
  | termsubgraph => exact (bounded_termSubgraph P _).reads
  | autocomplete =>
      cases terms : request.args "terms" with
      | none => simp only [autocomplete, arg, terms]; trivial
      | some query =>
          simp only [autocomplete, arg, terms]
          refine reads_lookup (fun word member scratched => unnamed ?_) tame_artistOptions
          exact ⟨route, query, terms, word, member, scratched⟩

/-- Requests leave behind nothing but scratch keys. -/
theorem served_agreeOff (history : List Job) (db : Store S) :
    AgreeOff scratch (served P history db) db := by
  induction history generalizing db with
  | nil => exact AgreeOff.refl _ _
  | cons job history ih =>
      refine (ih _).trans fun key clean => ?_
      exact run_agreeOff (machine S) (serve_writes P job.fuel job.request) job.tape db key
        fun own => clean (scratchOf_subset _ own)

end Requests
end Phonograph.Server.Footprints
