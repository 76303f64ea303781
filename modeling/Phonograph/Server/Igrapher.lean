import Phonograph.Server.Database

/-! # Building and sending a graph

`igrapher` and `d3_dictify` of `app.py`.  An igraph graph is its vertex names
and its edges, whose ends are positions in the vertex list and whose attributes
are attached by position. -/

set_option autoImplicit false

namespace Phonograph.Server.Igrapher

open Phonograph.Lib Phonograph.Server.Redis Phonograph.Server.Python Phonograph.Server.Database

/-- A track as the replies carry it; an artist without a stored name has none. -/
structure Track where
  id : String
  name : String
  popularity : String
  artists : List (Option String)
  deriving DecidableEq

structure Edge where
  source : ℕ
  target : ℕ
  weight : ℕ
  track : Track
  deriving DecidableEq

structure Graph where
  vs : List String
  es : List Edge
  deriving DecidableEq

abbrev NameMap := Dict String (Option String)

def artistName (acc : List (Option String) × NameMap) (artist : String) :
    Handler (List (Option String) × NameMap) :=
  match acc.2.lookup artist with
  | some name => return (acc.1 ++ [name], acc.2)
  | none => do
      let name ← Handler.hget (artistInfoKey artist) "name"
      return (acc.1 ++ [name], acc.2.insert artist name)

def artistNames (artists : List String) (nameMap : NameMap) :
    Handler (List (Option String) × NameMap) :=
  artists.foldlM artistName ([], nameMap)

/-- The three lists `igrapher` grows in step, and its name cache. -/
structure Collected where
  edges : List (String × String)
  weights : List ℕ
  tracks : List Track
  nameMap : NameMap

variable {F : Type}

def addLink (P : Platform F) (acc : Collected) (pair : String × String) (edgetracks : List String) :
    Handler Collected :=
  match edgetracks with
  | [] => pure acc
  | track :: _ => do
      let trackinfo ← Handler.hgetall (trackInfoKey track)
      let name ← Handler.ofOption .keyError (trackinfo "name")
      let popularity ← Handler.ofOption .keyError (trackinfo "popularity")
      let members ← Handler.smembers (trackArtistsKey track)
      let names ← artistNames (P.setOrder members) acc.nameMap
      return {
        edges := acc.edges ++ [pair]
        weights := acc.weights ++ [edgetracks.length]
        tracks := acc.tracks ++ [⟨track, name, popularity, names.1⟩]
        nameMap := names.2 }

/-- The body of the loop over `itertools.combinations(vertices, 2)`. -/
def collectPair (P : Platform F) (acc : Collected) (pair : String × String) :
    Handler Collected := do
  let _ ← Handler.zinterstore "pair" [tracksKey pair.1, tracksKey pair.2]
  addLink P acc pair (← Handler.zrevrange "pair" 0 (-1))

/-- `add_edges` finds the ends by vertex name, the attributes go by position. -/
def assemble (vertices : List String) (acc : Collected) : Graph where
  vs := vertices
  es := (acc.edges.zip (acc.weights.zip acc.tracks)).map fun e =>
    ⟨vertices.idxOf e.1.1, vertices.idxOf e.1.2, e.2.1, e.2.2⟩

def igrapher (P : Platform F) (vertices : List String) : Handler Graph := do
  let acc ← (pairs vertices).foldlM (collectPair P) ⟨[], [], [], ∅⟩
  return assemble vertices acc

def Graph.degree (g : Graph) (v : ℕ) : ℕ :=
  (g.es.countP fun e => e.source = v) + g.es.countP fun e => e.target = v

/-- igraph deletes the listed vertices with their edges and closes the gaps. -/
def Graph.deleteVertices (g : Graph) (gone : List ℕ) : Graph :=
  let kept := (List.range g.vs.length).filter (· ∉ gone)
  { vs := kept.filterMap (g.vs[·]?)
    es := (g.es.filter fun e => e.source ∉ gone ∧ e.target ∉ gone).map fun e =>
      { e with source := kept.idxOf e.source, target := kept.idxOf e.target } }

structure Node (F : Type) where
  id : String
  name : String
  popularity : ℤ
  genre : Option String
  pos : F × F
  deriving DecidableEq

structure D3Graph (F : Type) where
  nodes : List (Node F)
  links : List Edge
  origin : Option String
  deriving DecidableEq

def d3Node (artist : String) (pos : F × F) : Handler (Node F) := do
  let info ← Handler.hgetall (artistInfoKey artist)
  let name ← Handler.ofOption .keyError (info "name")
  let popularity ← Handler.ofOption .keyError (info "popularity")
  let popularity ← Handler.ofOption .valueError (int popularity)
  return ⟨artist, name, popularity + 1, info "genre", pos⟩

/-- The layout starts from random positions; weights above 4 count as 4. -/
def d3Dictify (P : Platform F) (g : Graph) (origin : Option String) : Handler (D3Graph F) :=
  .draw fun seed => do
    let weights := g.es.map fun e => if e.weight ≤ 4 then e.weight else 4
    let l := P.layout seed g.vs.length (g.es.map fun e => (e.source, e.target)) weights
    let nodes ← g.vs.zipIdx.mapM fun v => d3Node v.1 (l v.2)
    return ⟨nodes, g.es, origin⟩

theorem d3Dictify_ensures (P : Platform F) (g : Graph) (origin : Option String) :
    (d3Dictify P g origin).Ensures fun reply =>
      reply.nodes.map Node.id = g.vs ∧ reply.links = g.es := by
  have node : ∀ v : String × ℕ, ∀ pos : F × F,
      (d3Node v.1 pos).Ensures fun node => node.id = v.1 := by
    intro v pos
    unfold d3Node
    refine (Script.ensures_true _).bind fun info _ => (Script.ensures_true _).bind fun name _ => ?_
    refine (Script.ensures_true _).bind fun popularity _ => (Script.ensures_true _).bind fun _ _ => ?_
    exact rfl
  intro seed
  refine (Script.Ensures.mapM (fun v => node v _) _).bind fun nodes ids => ⟨?_, rfl⟩
  have same : nodes.map Node.id = g.vs.zipIdx.map Prod.fst := by
    generalize g.vs.zipIdx = vs at ids
    induction ids with
    | nil => rfl
    | cons first _ ih => rw [List.map_cons, List.map_cons, first, ih]
  rw [same, List.zipIdx_map_fst]

end Phonograph.Server.Igrapher
