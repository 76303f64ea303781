import Phonograph.Server.Igrapher
import Phonograph.Server.Paths

/-! # The request handlers

Every route of `app.py` as a handler over its query arguments.  Loops whose end
depends on the data or on the random choices take fuel, and raise `looping`
when it runs out. -/

set_option autoImplicit false

namespace Phonograph.Server.Routes

open Phonograph.Lib Phonograph.Server.Redis Phonograph.Server.Python
open Phonograph.Server.Database Phonograph.Server.Paths Phonograph.Server.Igrapher

inductive Route where
  | index | path | neighbourhood | zoom | custom | edgeLookup | autocomplete | genresearch
  | termsubgraph
  deriving DecidableEq, Repr

structure Request where
  route : Route
  args : String → Option String

inductive Response (F : Type) where
  | page
  | graph (g : D3Graph F)
  | error (message : String)
  | tracks (tracks : List Track)
  | options (options : List (String × Option String))
  deriving DecidableEq

def arg (args : String → Option String) (name : String) : Handler String :=
  Handler.ofOption .badRequest (args name)

def intArg (args : String → Option String) (name : String) : Handler ℤ := do
  Handler.ofOption .valueError (int (← arg args name))

variable {F : Type} (P : Platform F)

/-! ## Paths -/

def pathFinder (args : String → Option String) : Handler (Response F) := do
  let i ← arg args "source"
  let j ← arg args "destination"
  let paths ← findPaths P i j
  if (paths.getD []) ≠ [] then do
    let path ← Handler.choice ((← findPaths P i j).getD [])
    let g ← igrapher P path
    pure (.graph (← d3Dictify P g none))
  else pure (.error "No path found.")

/-! ## Neighbourhoods -/

def popularityOf (artist : String) : Handler (Option String) :=
  Handler.hget (artistInfoKey artist) "popularity"

/-- `int(r.hget(...))`: no stored value is a `TypeError`. -/
def intPopularity (artist : String) : Handler ℤ := do
  let stored ← Handler.ofOption .typeError (← popularityOf artist)
  Handler.ofOption .valueError (int stored)

/-- `a and int(r.hget(...)) > 25`, where the popularity is read only if `a` holds. -/
def popularIf (a : Bool) (artist : String) : Handler Bool :=
  if a then do pure (decide ((← intPopularity artist) > 25)) else pure false

def randomOriginLoop (term origin : String) : ℕ → Handler String
  | 0 => Handler.raise .looping
  | fuel + 1 => do
      let neighbours ← Handler.smembers (neighboursKey origin)
      let known ← popularIf (neighbours.length > 5) origin
      if known then pure origin
      else do
        let origin ← Handler.choice (← Handler.zrevrange (termArtistsKey term) 0 500)
        randomOriginLoop term origin fuel

def genres : List String := ["rock", "pop", "classical", "hip hop", "latin", "reggae",
  "electronic", "country", "jazz", "funk"]

def randomOrigin (fuel : ℕ) : Handler String := do
  let tempgenre ← Handler.choice genres
  let origin ← Handler.choice (← Handler.zrevrange (termArtistsKey tempgenre) 0 500)
  randomOriginLoop tempgenre origin fuel

/-- `None` and the empty string are false. -/
def genreNeighbours (origin : String) (genre : Option String) : Handler (List String) := do
  let members ← Handler.smembers (neighboursKey origin)
  if genre = none ∨ genre = some "" then pure members
  else (P.setOrder members).filterM fun n => do
    pure (decide ((← Handler.hget (artistInfoKey n) "genre") = genre))

/-- The genre of the candidate, read only if it has ten neighbours in the genre. -/
def genreIf (a : Bool) (artist : String) : Handler (Option String) :=
  if a then Handler.hget (artistInfoKey artist) "genre" else pure none

def genreOriginLoop (genre : String) (topArtists : List String) (origin : String)
    (gn : List String) : ℕ → Handler String
  | 0 => Handler.raise .looping
  | fuel + 1 => do
      let stored ← genreIf (gn.length ≥ 10) origin
      let fits ← popularIf (stored = some genre) origin
      if fits then pure origin
      else do
        let origin ← Handler.choice topArtists
        let gn ← genreNeighbours P origin genre
        genreOriginLoop genre topArtists origin gn fuel

def genreOrigin (genre : String) (fuel : ℕ) : Handler String := do
  let topArtists ← Handler.zrevrange (termArtistsKey genre) 0 500
  let origin ← Handler.choice topArtists
  let gn ← genreNeighbours P origin genre
  genreOriginLoop P genre topArtists origin gn fuel

abbrev Scores := Dict String ℕ

/-- `d.items()` in the order CPython walks the dictionary. -/
def items (d : Scores) : List (String × ℕ) :=
  (P.dictOrder d.keys).map fun k => (k, (d.lookup k).getD 0)

def ofItems (xs : List (String × ℕ)) : Scores := xs.foldl (fun d e => d.insert e.1 e.2) ∅

def step (currentstep : Scores) (genre : Option String) : Handler Scores :=
  (items P currentstep).foldlM (fun next e => do
    let neighbours ← genreNeighbours P e.1 genre
    return (P.setOrder neighbours).foldl
      (fun next a => next.insert a ((next.lookup a).getD 0 + e.2)) next) ∅

def neighbourhoodLoop (genre : Option String) (size : ℤ) :
    ℕ → Scores → List String → List String → Handler (List String)
  | 0, _, _, _ => Handler.raise .looping
  | fuel + 1, currentstep, neighbourhood, visited =>
      if (neighbourhood.length : ℤ) < size then do
        let currentstep ← step P currentstep genre
        let n := size - neighbourhood.length
        let toConsider := ofItems ((items P currentstep).filter fun e => e.1 ∉ visited)
        let ranked := sortedDesc (fun a b => decide (a.2 ≤ b.2)) (items P toConsider)
        let toAdd := ofItems (sliceTo n ranked)
        if toAdd.keys = [] then pure neighbourhood
        else
          let neighbourhood := setUpdate neighbourhood (P.dictOrder toAdd.keys)
          let visited := setUpdate visited (P.dictOrder currentstep.keys)
          neighbourhoodLoop genre size fuel toAdd neighbourhood visited
      else pure neighbourhood

def originFor (fuel : ℕ) (origin : String) (genre : Option String) : Handler String :=
  if origin = "null" then
    match genre with
    | none => randomOrigin fuel
    | some genre => genreOrigin P genre fuel
  else pure origin

def neighbourhood (fuel : ℕ) (args : String → Option String) : Handler (Response F) := do
  let size ← intArg args "size"
  let genre ← arg args "genre"
  let origin ← arg args "origin"
  let genre : Option String := if genre = "null" then none else some genre
  let origin ← originFor P fuel origin genre
  let chosen ← neighbourhoodLoop P genre size fuel (AList.singleton origin 1) [origin] [origin]
  let g ← igrapher P (P.setOrder chosen)
  return .graph (← d3Dictify P g (some origin))

/-! ## Zoom -/

def popSorted (nodes : List String) : Handler (List String) := do
  let keyed ← nodes.mapM fun x => do return (x, ← popularityOf x)
  return (sortedDesc (fun a b => keyLe a.2 b.2) keyed).map Prod.fst

abbrev LeafPaths := Dict String (List Path)

def zoomSweep (size : ℤ) (distances : Distances) (c : ℕ) :
    List String → List String → LeafPaths → Except PyErr (List String × LeafPaths)
  | [], chosen, paths => .ok (chosen, paths)
  | leaf :: leaves, chosen, paths => do
      let stored ← match paths.lookup leaf with
        | some stored => .ok stored
        | none => determinePaths leaf distances c
      let last ← match stored.getLast? with
        | some last => .ok last
        | none => .error .indexError
      let chosen := setUpdate chosen last
      if (chosen.length : ℤ) ≥ size then .ok (chosen, paths.insert leaf stored)
      else zoomSweep size distances c leaves chosen (paths.insert leaf stored.dropLast)

structure ZoomState where
  distances : Distances
  chosen : List String
  c : ℕ
  k : ℕ
  rankedLeaves : List String
  paths : LeafPaths

def deepest (distances : Distances) : ℕ := distances.keys.foldl max 0

/-- `random.sample(distances[c].keys(), len(distances[c].keys()))`. -/
def sampleLevel (distances : Distances) (c : ℕ) : Handler (List String) := do
  let level ← ofExcept (item distances c)
  Handler.sample (P.dictOrder level.keys)

def zoomRound (origin : String) (size level : ℤ) (s : ZoomState) : Handler ZoomState := do
  let swept ← ofExcept (zoomSweep size s.distances s.c s.rankedLeaves s.chosen s.paths)
  let onpaths := swept.2.entries.flatMap fun e => e.2.flatten
  if onpaths ≠ [] then pure { s with chosen := swept.1, paths := swept.2 }
  else if s.c > 1 then do
    let rankedLeaves ← sampleLevel P s.distances (s.c - 1)
    pure { s with chosen := swept.1, paths := swept.2, c := s.c - 1, rankedLeaves := rankedLeaves }
  else do
    let distances ← dijkstra P origin (level + s.k)
    let rankedLeaves ← sampleLevel P distances (deepest distances)
    pure ⟨distances, [origin], deepest distances, s.k + 1, rankedLeaves, ∅⟩

def zoomLoop (origin : String) (size level : ℤ) : ℕ → ZoomState → Handler (List String)
  | 0, _ => Handler.raise .looping
  | fuel + 1, s =>
      if (s.chosen.length : ℤ) < size then do
        zoomLoop origin size level fuel (← zoomRound P origin size level s)
      else pure s.chosen

def zoomStart (origin : String) (level : ℤ) : Handler ZoomState := do
  let distances ← dijkstra P origin level
  let c := deepest distances
  let leaves ← ofExcept (item distances c)
  let byPop ← popSorted (P.dictOrder leaves.keys)
  let topHalf := byPop.take (byPop.length / 2)
  let bottomHalf := byPop.drop (byPop.length / 2)
  let shuffled ← Handler.sample topHalf
  return ⟨distances, [origin], c, 1, shuffled ++ bottomHalf, ∅⟩

def zoom (fuel : ℕ) (args : String → Option String) : Handler (Response F) := do
  let origin ← arg args "origin"
  let size ← intArg args "size"
  let level ← intArg args "level"
  let start ← zoomStart P origin level
  let chosen ← zoomLoop P origin size level fuel start
  let g ← igrapher P (P.setOrder chosen)
  return .graph (← d3Dictify P g (some origin))

/-! ## Custom subgraphs -/

abbrev Pair := String × String
abbrev PathsDict := Dict Pair (List Path)

/-- `list(set(xs))`. -/
def listSet (xs : List String) : List String := P.setOrder (setUpdate [] xs)

def customStart (core : List String) : Handler (PathsDict × List String) :=
  (pairs core).foldlM (fun acc pair => do
    match ← findPaths P pair.1 pair.2 with
    | none => Handler.raise .typeError
    | some [] => Handler.raise .indexError
    | some (first :: rest) => return (acc.1.insert pair (first :: rest), acc.2 ++ first)) (∅, [])

/-- The loop `for pair in sorted_pairs`, which walks the list by position while
pairs are removed from it. -/
def customSweep (pathsDict : PathsDict) (size : ℤ) (counter : ℕ) :
    ℕ → ℕ → List Pair → List String → List Pair × List String
  | 0, _, sortedPairs, skeleton => (sortedPairs, skeleton)
  | left + 1, index, sortedPairs, skeleton =>
      match sortedPairs[index]? with
      | none => (sortedPairs, skeleton)
      | some pair =>
          if (skeleton.length : ℤ) ≥ size then (sortedPairs, skeleton)
          else match ((pathsDict.lookup pair).getD [])[counter]? with
            | some path => customSweep pathsDict size counter left (index + 1) sortedPairs (skeleton ++ path)
            | none => customSweep pathsDict size counter left (index + 1) (sortedPairs.erase pair) skeleton

def customLoop (pathsDict : PathsDict) (size : ℤ) (maxCount : ℕ) :
    ℕ → ℕ → List Pair → List String → Handler (List String)
  | 0, _, _, _ => Handler.raise .looping
  | fuel + 1, counter, sortedPairs, skeleton =>
      if (skeleton.length : ℤ) < size then
        if counter > maxCount then pure skeleton
        else
          let swept := customSweep pathsDict size counter sortedPairs.length 0 sortedPairs skeleton
          customLoop pathsDict size maxCount fuel (counter + 1) swept.1 (listSet P swept.2)
      else pure skeleton

def customSubgraph (fuel : ℕ) (args : String → Option String) : Handler (Response F) := do
  let size ← intArg args "size"
  let core := split ',' (← arg args "core")
  let start ← customStart P core
  let pathsDict := start.1
  let skeleton := listSet P start.2
  let distance (pair : Pair) : ℕ := (((pathsDict.lookup pair).getD []).headD []).length
  let maxCount ← Handler.ofOption .valueError
    (pathsDict.keys.map fun pair => ((pathsDict.lookup pair).getD []).length).max?
  let sortedPairs := (P.pairOrder pathsDict.keys).insertionSort fun a b => distance a ≤ distance b
  let skeleton ← customLoop P pathsDict size maxCount fuel 1 sortedPairs skeleton
  let g ← igrapher P skeleton
  return .graph (← d3Dictify P g none)

/-! ## Link details and searches -/

def edgeTrack (track : String) : Handler Track := do
  let trackInfo ← Handler.hgetall (trackInfoKey track)
  let members ← Handler.smembers (trackArtistsKey track)
  let trackArtists ← (P.setOrder members).mapM fun a => Handler.hget (artistInfoKey a) "name"
  let name ← Handler.ofOption .keyError (trackInfo "name")
  let popularity ← Handler.ofOption .keyError (trackInfo "popularity")
  return ⟨track, name, popularity, trackArtists⟩

def edgeTracks (trackIds : List String) : Handler (Response F) := do
  return .tracks (← trackIds.mapM (edgeTrack P))

def edgeLookup (args : String → Option String) : Handler (Response F) := do
  let ids := split ',' (← arg args "seed")
  let first ← Handler.ofOption .indexError ids[0]?
  let second ← Handler.ofOption .indexError ids[1]?
  let _ ← Handler.zinterstore "edgelookup" [tracksKey first, tracksKey second]
  edgeTracks P (← Handler.zrevrange "edgelookup" 0 (-1))

def searchWords (query : String) : List String := (split ',' query).map P.lower

def artistOptions (values : List String) : Handler (Response F) := do
  return .options (← values.mapM fun value => do
    return (value, ← Handler.hget (artistInfoKey value) "name"))

def autocomplete (args : String → Option String) : Handler (Response F) := do
  let terms := searchWords P (← arg args "terms")
  let _ ← Handler.zinterstore "artistsearch" terms
  artistOptions (← Handler.zrevrange "artistsearch" 0 20)

def capitaliseWord : List Char → Except PyErr (List Char)
  | [] => .error .indexError
  | c :: cs => .ok (P.upper c :: cs)

def capitalise (phrase : String) : Except PyErr String := do
  let words ← (phrase.toList.splitOn ' ').mapM (capitaliseWord P)
  return String.ofList (List.intercalate [' '] words)

def genreOptions (values : List String) : Handler (Response F) := do
  return .options (← values.mapM fun value => do
    return (value, some (← ofExcept (capitalise P value))))

def genreSearch (args : String → Option String) : Handler (Response F) := do
  let terms := (searchWords P (← arg args "terms")).map termMatcherKey
  let _ ← Handler.zinterstore "genresearch" terms
  genreOptions P (← Handler.zrevrange "genresearch" 0 20)

def termSubgraph (args : String → Option String) : Handler (Response F) := do
  let term ← arg args "term"
  let size ← intArg args "size"
  let results ← Handler.zrevrange (termArtistsKey term) 0 (size * 3)
  let n := (results.length : ℤ) - size
  let g ← igrapher P results
  let deg := ((List.range g.vs.length).map fun v => (v, g.degree v)).insertionSort
    fun a b => a.2 ≤ b.2
  let g := g.deleteVertices ((sliceTo n deg).map Prod.fst)
  return .graph (← d3Dictify P g none)

def serve (fuel : ℕ) (request : Request) : Handler (Response F) :=
  match request.route with
  | .index => return .page
  | .path => pathFinder P request.args
  | .neighbourhood => neighbourhood P fuel request.args
  | .zoom => zoom P fuel request.args
  | .custom => customSubgraph P fuel request.args
  | .edgeLookup => edgeLookup P request.args
  | .autocomplete => autocomplete P request.args
  | .genresearch => genreSearch P request.args
  | .termsubgraph => termSubgraph P request.args

structure Job where
  request : Request
  fuel : ℕ
  tape : Tape

def alone {S : Type} [Score S] (job : Job) (db : Store S) : Except PyErr (Response F) :=
  (run (machine S) (serve P job.fuel job.request) job.tape db).1

def served {S : Type} [Score S] (history : List Job) (db : Store S) : Store S :=
  history.foldl (fun store job =>
    (run (machine S) (serve P job.fuel job.request) job.tape store).2.2) db

end Phonograph.Server.Routes
