import Mathlib
import Phonograph.Server.Links

/-! # The graph that is sent

What the client receives for a list of artists, in terms of the database: the
nodes in the order of the list, and a link for every two artists with a common
track, with their number and the best of them.  The three lists that
`igrapher` grows in step, its name cache and the key that every pair reuses
leave no trace.  `d3_dictify` needs the record of every artist; without one
nothing is sent. -/

set_option autoImplicit false

namespace Phonograph.Server.SentGraph

open Phonograph.Lib Phonograph.Server.Redis Phonograph.Server.Python
open Phonograph.Server.Database Phonograph.Server.Igrapher Phonograph.Server.Routes
open Phonograph.Server.Links

/-- `d3_dictify(igrapher(vs))`. -/
def sendGraph {F : Type} (P : Platform F) (vs : List String) (origin : Option String) :
    Handler (D3Graph F) := do
  let g ← igrapher P vs
  d3Dictify P g origin

section Sent
variable {F S : Type} [Score S] (P : Platform F) (db : MusicDb S)

def sharedTracks (a b : String) : List String :=
  (db.tracks a).members.filter (· ∈ (db.tracks b).members)

/-- The track is common to `a` and `b`, and first by descending summed score, ties by
descending id. -/
def BestShared (a b track : String) : Prop :=
  ∃ x y, (track, x) ∈ (db.tracks a).entries ∧ (track, y) ∈ (db.tracks b).entries ∧
    ∀ other x' y', (other, x') ∈ (db.tracks a).entries → (other, y') ∈ (db.tracks b).entries →
      other ≠ track → x' + y' < x + y ∨ (x' + y' = x + y ∧ other < track)

structure LinkRight (a b : String) (e : Edge) : Prop where
  weight : e.weight = (sharedTracks db a b).length
  best : BestShared db a b e.track.id
  name : db.trackInfo e.track.id "name" = some e.track.name
  popularity : db.trackInfo e.track.id "popularity" = some e.track.popularity
  artists : e.track.artists = (P.setOrder (db.trackArtists e.track.id).members).map
    fun artist => db.artistInfo artist "name"

/-- The reply has the vertices as nodes, in their order, and exactly one link for every two
positions whose artists have a common track. -/
structure Sent (vs : List String) (reply : D3Graph F) : Prop where
  nodes : reply.nodes.map Node.id = vs
  once : (reply.links.map fun e => (e.source, e.target)).Nodup
  ends : ∀ m n, (m, n) ∈ reply.links.map (fun e => (e.source, e.target)) ↔
    m < n ∧ ∃ a b, vs[m]? = some a ∧ vs[n]? = some b ∧ sharedTracks db a b ≠ []
  right : ∀ e ∈ reply.links, ∀ a b, vs[e.source]? = some a → vs[e.target]? = some b →
    LinkRight P db a b e

/-- The record of an artist has what `d3_dictify` reads. -/
def HasRecord (artist : String) : Prop :=
  (db.artistInfo artist "name").isSome ∧ ((db.artistInfo artist "popularity").bind int).isSome

instance (artist : String) : Decidable (HasRecord db artist) :=
  inferInstanceAs (Decidable (_ ∧ _))

/-! ## The links of the induced graph -/

variable {db}

theorem perm_common (a b : String) : (common db a b).Perm (sharedTracks db a b) := by
  have nodup : (common db a b).Nodup := (perm_revSorted _).nodup_iff.mpr (ZSet.nodup _)
  have nodup' : (sharedTracks db a b).Nodup := (db.tracks a).nodup.filter _
  rw [List.perm_ext_iff_of_nodup nodup nodup']
  intro track
  rw [mem_common, sharedTracks, List.mem_filter, decide_eq_true_eq]

theorem sharedTracks_ne_nil (a b : String) :
    sharedTracks db a b ≠ [] ↔ linked db (a, b) = true := by
  rw [linked_iff, sharedTracks, Ne, List.eq_nil_iff_forall_not_mem]
  simp

theorem bestShared_of_head {a b track : String} (head : (common db a b).head? = some track) :
    BestShared db a b track := by
  obtain ⟨score, inside, best⟩ := head_revSorted head
  obtain ⟨x, y, left, right, rfl⟩ := mem_meet_entries.mp inside
  refine ⟨x, y, left, right, fun other x' y' left' right' ne => ?_⟩
  exact best other (x' + y') (mem_meet_entries.mpr ⟨x', y', left', right', rfl⟩) ne

theorem linkRight_link {a b : String} {vs : List String} (joined : linked db (a, b) = true)
    (info : ∀ track ∈ (common db a b).head?, HasInfo db track) :
    LinkRight P db a b (link P db vs (a, b)) := by
  cases tracks : common db a b with
  | nil => simp [linked, tracks] at joined
  | cons track rest =>
      have head : (common db a b).head? = some track := by rw [tracks, List.head?_cons]
      obtain ⟨name, popularity⟩ := info track head
      have shown : (link P db vs (a, b)).track = trackOf P db track := by
        simp only [link, tracks, List.headD_cons]
      constructor
      · exact (perm_common a b).length_eq
      · rw [shown]
        exact bestShared_of_head head
      · obtain ⟨text, found⟩ := Option.isSome_iff_exists.mp name
        rw [shown, trackOf, found]
        rfl
      · obtain ⟨text, found⟩ := Option.isSome_iff_exists.mp popularity
        rw [shown, trackOf, found]
        rfl
      · rw [shown]
        rfl

section Positions
variable {vs : List String} (nodup : vs.Nodup)
include nodup

variable (db) in
theorem ends_inducedGraph (m n : ℕ) :
    (m, n) ∈ (inducedGraph P db vs).es.map (fun e => (e.source, e.target)) ↔
      m < n ∧ ∃ a b, vs[m]? = some a ∧ vs[n]? = some b ∧ sharedTracks db a b ≠ [] := by
  rw [inducedGraph, List.map_map, List.mem_map]
  constructor
  · intro ⟨⟨a, b⟩, listed, ends⟩
    obtain ⟨pair, joined⟩ := List.mem_filter.mp listed
    obtain ⟨m', n', less, left, right⟩ := mem_pairs.mp pair
    obtain ⟨source, target⟩ := Prod.mk.inj ends
    obtain rfl : m' = m := (idxOf_of_getElem nodup left).symm.trans source
    obtain rfl : n' = n := (idxOf_of_getElem nodup right).symm.trans target
    exact ⟨less, a, b, left, right, (sharedTracks_ne_nil a b).mpr joined⟩
  · intro ⟨less, a, b, left, right, shared⟩
    refine ⟨(a, b), List.mem_filter.mpr ⟨mem_pairs.mpr ⟨m, n, less, left, right⟩,
      (sharedTracks_ne_nil a b).mp shared⟩, ?_⟩
    exact Prod.ext (idxOf_of_getElem nodup left) (idxOf_of_getElem nodup right)

variable (db) in
theorem once_inducedGraph :
    ((inducedGraph P db vs).es.map fun e => (e.source, e.target)).Nodup := by
  rw [inducedGraph, List.map_map]
  refine ((nodup_pairs nodup).filter _).map_on fun p inP q inQ same => ?_
  obtain ⟨a, b⟩ := p
  obtain ⟨c, d⟩ := q
  obtain ⟨inA, inB⟩ := mem_of_mem_pairs (List.mem_of_mem_filter inP)
  obtain ⟨source, target⟩ := Prod.mk.inj same
  rw [(List.idxOf_inj inA).mp source, (List.idxOf_inj inB).mp target]

theorem sent_inducedGraph (info : ∀ pair ∈ pairs vs,
    ∀ track ∈ (common db pair.1 pair.2).head?, HasInfo db track) {reply : D3Graph F}
    (ids : reply.nodes.map Node.id = (inducedGraph P db vs).vs)
    (links : reply.links = (inducedGraph P db vs).es) : Sent P db vs reply := by
  constructor
  · exact ids
  · rw [links]
    exact once_inducedGraph P db nodup
  · rw [links]
    exact ends_inducedGraph P db nodup
  · rw [links]
    intro e member a b source target
    obtain ⟨⟨c, d⟩, listed, rfl⟩ := List.mem_map.mp member
    obtain ⟨pair, joined⟩ := List.mem_filter.mp listed
    obtain ⟨inC, inD⟩ := mem_of_mem_pairs pair
    obtain rfl : c = a := Option.some.inj ((List.getElem?_idxOf inC).symm.trans source)
    obtain rfl : d = b := Option.some.inj ((List.getElem?_idxOf inD).symm.trans target)
    exact linkRight_link P joined (info (c, d) pair)

end Positions

/-! ## The reply -/

variable (db) in
def nodeOf (artist : String) (pos : F × F) : Node F where
  id := artist
  name := (db.artistInfo artist "name").getD ""
  popularity := ((db.artistInfo artist "popularity").bind int).getD 0 + 1
  genre := db.artistInfo artist "genre"
  pos := pos

theorem yields_d3Node {artist : String} (record : HasRecord db artist) (pos : F × F) :
    Yields db.store (d3Node artist pos) (nodeOf db artist pos) := by
  obtain ⟨name, read⟩ := record
  obtain ⟨number, found⟩ := Option.isSome_iff_exists.mp read
  obtain ⟨text, stored, value⟩ := Option.bind_eq_some_iff.mp found
  have popularity : Yields db.store
      (Handler.ofOption .keyError (db.artistInfo artist "popularity")) text := by
    rw [stored]
    exact Gives.done _ _ _ _
  refine Gives.bind _ (yields_hgetall (artistInfoKey_not_scratch artist)
    (db.artistInfo_kind artist)) ?_
  refine Gives.bind _ (yields_ofOption "" name) ?_
  refine Gives.bind _ popularity ?_
  rw [nodeOf, found, value]
  exact Gives.done _ _ _ _

theorem run_d3Dictify {g : Graph} (records : ∀ a ∈ g.vs, HasRecord db a) (origin : Option String)
    {store : Store S} (agree : AgreeOff scratch store db.store) (tape : Tape) :
    ∃ reply, (run (machine S) (d3Dictify P g origin) tape store).1 = .ok reply := by
  rw [d3Dictify, run_draw]
  dsimp only
  generalize P.layout (tape 0) _ _ _ = pos
  have nodes : Yields db.store (g.vs.zipIdx.mapM fun v => d3Node v.1 (pos v.2))
      (g.vs.zipIdx.map fun v => nodeOf db v.1 (pos v.2)) := by
    refine Gives.mapM _ _ fun v member => ?_
    exact yields_d3Node (records v.1 (List.fst_mem_of_mem_zipIdx member)) (pos v.2)
  have whole : Yields db.store
      (do return D3Graph.mk (← g.vs.zipIdx.mapM fun v => d3Node v.1 (pos v.2)) g.es origin)
      (D3Graph.mk (g.vs.zipIdx.map fun v => nodeOf db v.1 (pos v.2)) g.es origin) :=
    Gives.bind _ nodes (Gives.done _ _ _ _)
  obtain ⟨_, ran, _⟩ := whole store agree tape.tail
  exact ⟨_, congrArg Prod.fst ran⟩

/-- For every list of different artists with their records, and every database in which the
tracks that two of them share have theirs: what is sent is right. -/
theorem sendGraph_sent (P : Platform F) (db : MusicDb S) (vs : List String) (nodup : vs.Nodup)
    (info : ∀ a ∈ vs, ∀ b ∈ vs, a ≠ b → ∀ track ∈ (db.tracks a).members,
      track ∈ (db.tracks b).members → HasInfo db track)
    (records : ∀ a ∈ vs, HasRecord db a) (origin : Option String) (tape : Tape) :
    ∃ reply, (run (machine S) (sendGraph P vs origin) tape db.store).1 = .ok reply ∧
      Sent P db vs reply := by
  have best : ∀ pair ∈ pairs vs, ∀ track ∈ (common db pair.1 pair.2).head?, HasInfo db track := by
    intro pair member track head
    obtain ⟨left, right⟩ := mem_of_mem_pairs member
    obtain ⟨inA, inB⟩ := (mem_common db).mp (List.mem_of_mem_head? head)
    exact info pair.1 left pair.2 right (ne_of_mem_pairs nodup member) track inA inB
  obtain ⟨store, built, agree⟩ := yields_igrapher (P := P) best db.store (AgreeOff.refl _ _) tape
  obtain ⟨reply, sent⟩ := run_d3Dictify P (g := inducedGraph P db vs) records origin agree tape
  obtain ⟨ids, links⟩ := run_ensures (machine S) (d3Dictify_ensures P _ origin) sent
  refine ⟨reply, ?_, sent_inducedGraph P nodup best ids links⟩
  rw [sendGraph, run_bind, built]
  exact sent

end Sent

theorem sendGraph_sent_row : ∃ reply,
    (run (machine ℤ) (sendGraph Platform.plain ["c", "b", "a"] (some "b")) (fun _ => 0)
      rowDb.store).1 = .ok reply ∧ Sent Platform.plain rowDb ["c", "b", "a"] reply :=
  sendGraph_sent Platform.plain rowDb ["c", "b", "a"] (by decide) (by decide +kernel)
    (by decide +kernel) (some "b") fun _ => 0

def namelessDb : MusicDb ℤ := .ofEntries
  (("artist.tracks:d", .zset ⟨[("t", 2)], List.nodup_singleton _⟩) :: rowEntries)
  (by decide) (by decide) (by decide) (by decide) (by decide)

/-- The track that `a` and `d` share has its record, but nothing is sent. -/
theorem graph_not_sent :
    (∀ a ∈ ["a", "d"], ∀ b ∈ ["a", "d"], a ≠ b → ∀ track ∈ (namelessDb.tracks a).members,
      track ∈ (namelessDb.tracks b).members → HasInfo namelessDb track) ∧
    ¬ ∃ reply, (run (machine ℤ) (sendGraph Platform.plain ["a", "d"] none) (fun _ => 0)
      namelessDb.store).1 = .ok reply ∧ Sent Platform.plain namelessDb ["a", "d"] reply := by
  have raised : (run (machine ℤ) (sendGraph Platform.plain ["a", "d"] none) (fun _ => 0)
      namelessDb.store).1 = .error .keyError := by
    decide +kernel
  refine ⟨by decide +kernel, ?_⟩
  intro ⟨reply, ran, _⟩
  rw [raised] at ran
  cases ran

end Phonograph.Server.SentGraph
