import Mathlib
import Phonograph.Server.Routes

/-! # The deletion step of the term subgraph

`/termsubgraph` fetches about three times as many artists as it was asked for
and deletes those with the fewest links.  The number to delete is a difference
used as the end of a slice.  It is negative for a term with fewer artists than
asked for, and a negative end counts from the back: then some of the artists
are deleted although none is one too many, unless there are so few of them that
the end lies before the start.  `keepsBest_iff` says when the step is right. -/

set_option autoImplicit false

namespace Phonograph.Server.TermSubgraph

open Phonograph.Lib Phonograph.Server.Redis Phonograph.Server.Python
open Phonograph.Server.Database Phonograph.Server.Igrapher Phonograph.Server.Routes

/-- `sorted(enumerate(g.degree()), key = lambda x:x[1])`. -/
def byDegree (g : Graph) : List (ℕ × ℕ) :=
  ((List.range g.vs.length).map fun v => (v, g.degree v)).insertionSort fun a b => a.2 ≤ b.2

def lowest (g : Graph) (k : ℕ) : List ℕ := ((byDegree g).take k).map Prod.fst

def deletion (fetched : ℕ) (size : ℤ) (g : Graph) : Graph :=
  g.deleteVertices ((sliceTo ((fetched : ℤ) - size) (byDegree g)).map Prod.fst)

section Route
variable {F : Type} (P : Platform F)

theorem termSubgraph_eq (args : String → Option String) :
    termSubgraph P args = do
      let term ← arg args "term"
      let size ← intArg args "size"
      let results ← Handler.zrevrange (termArtistsKey term) 0 (size * 3)
      let g ← igrapher P results
      return .graph (← d3Dictify P (deletion results.length size g) none) := rfl

end Route

/-! ## Vertices in the order of their degrees -/

section Degree
variable (g : Graph) (k : ℕ)

theorem perm_byDegree :
    (byDegree g).Perm ((List.range g.vs.length).map fun v => (v, g.degree v)) :=
  List.perm_insertionSort _ _

theorem length_byDegree : (byDegree g).length = g.vs.length := by
  rw [(perm_byDegree g).length_eq, List.length_map, List.length_range]

theorem sorted_byDegree : (byDegree g).Pairwise fun a b => a.2 ≤ b.2 := by
  have total : Std.Total fun a b : ℕ × ℕ => a.2 ≤ b.2 := ⟨fun a b => le_total a.2 b.2⟩
  have trans : IsTrans (ℕ × ℕ) fun a b => a.2 ≤ b.2 := ⟨fun a b c => le_trans⟩
  exact List.pairwise_insertionSort _ _

theorem positions_byDegree : ((byDegree g).map Prod.fst).Perm (List.range g.vs.length) := by
  have mapped := (perm_byDegree g).map Prod.fst
  rw [List.map_map] at mapped
  exact mapped.trans (by rw [show (Prod.fst ∘ fun v => (v, g.degree v)) = id from rfl, List.map_id])

theorem mem_byDegree {e : ℕ × ℕ} (member : e ∈ byDegree g) : e.2 = g.degree e.1 := by
  obtain ⟨v, _, rfl⟩ := List.mem_map.mp ((perm_byDegree g).mem_iff.mp member)
  rfl

theorem length_lowest : (lowest g k).length = min k g.vs.length := by
  rw [lowest, List.length_map, List.length_take, length_byDegree]

theorem nodup_lowest : (lowest g k).Nodup := by
  have nodup := (positions_byDegree g).nodup_iff.mpr List.nodup_range
  rw [lowest, List.map_take]
  exact nodup.sublist (List.take_sublist k _)

theorem lt_of_mem_lowest {v : ℕ} (member : v ∈ lowest g k) : v < g.vs.length := by
  rw [lowest, List.map_take] at member
  exact List.mem_range.mp ((positions_byDegree g).mem_iff.mp (List.mem_of_mem_take member))

theorem degree_le_of_mem_lowest {v w : ℕ} (member : v ∈ lowest g k) (bound : w < g.vs.length)
    (other : w ∉ lowest g k) : g.degree v ≤ g.degree w := by
  obtain ⟨e, low, rfl⟩ := List.mem_map.mp member
  have listed : w ∈ (byDegree g).map Prod.fst :=
    (positions_byDegree g).mem_iff.mpr (List.mem_range.mpr bound)
  obtain ⟨e', inside, rfl⟩ := List.mem_map.mp listed
  have high : e' ∈ (byDegree g).drop k := by
    rw [← List.take_append_drop k (byDegree g), List.mem_append] at inside
    rcases inside with early | late
    · exact absurd (List.mem_map_of_mem early) other
    · exact late
  have sorted := sorted_byDegree g
  rw [← List.take_append_drop k (byDegree g), List.pairwise_append] at sorted
  have le := sorted.2.2 e low e' high
  rwa [mem_byDegree g (List.mem_of_mem_take low), mem_byDegree g (List.mem_of_mem_drop high)] at le

end Degree

/-! ## Deleting vertices -/

section Delete
variable (g : Graph) {gone : List ℕ}

theorem mem_deleteVertices {a : String} :
    a ∈ (g.deleteVertices gone).vs ↔ ∃ v, v ∉ gone ∧ g.vs[v]? = some a := by
  simp only [Graph.deleteVertices, List.mem_filterMap, List.mem_filter, List.mem_range,
    decide_eq_true_eq]
  constructor
  · intro ⟨v, ⟨_, kept⟩, found⟩
    exact ⟨v, kept, found⟩
  · intro ⟨v, kept, found⟩
    exact ⟨v, ⟨(List.getElem?_eq_some_iff.mp found).1, kept⟩, found⟩

theorem length_deleteVertices (nodup : gone.Nodup) (bound : ∀ v ∈ gone, v < g.vs.length) :
    (g.deleteVertices gone).vs.length + gone.length = g.vs.length := by
  have all : ((List.range g.vs.length).filter (· ∉ gone)).filterMap (g.vs[·]?) =
      (((List.range g.vs.length).filter (· ∉ gone)).map fun v => g.vs[v]?.getD "") := by
    rw [← List.filterMap_eq_map]
    refine List.filterMap_congr fun v member => ?_
    have inside := List.mem_range.mp (List.mem_of_mem_filter member)
    rw [Function.comp_apply, List.getElem?_eq_getElem inside]
    rfl
  have deleted : ((List.range g.vs.length).filter (· ∈ gone)).Perm gone := by
    rw [List.perm_ext_iff_of_nodup (List.nodup_range.filter _) nodup]
    intro v
    rw [List.mem_filter, List.mem_range, decide_eq_true_eq]
    exact ⟨And.right, fun member => ⟨bound v member, member⟩⟩
  have parts := List.length_eq_length_filter_add (l := List.range g.vs.length) (· ∈ gone)
  rw [deleted.length_eq, List.length_range] at parts
  rw [Graph.deleteVertices, all, List.length_map]
  simp only [decide_not]
  omega

end Delete

/-! ## The deletion step -/

/-- `size` vertices are left, or all there are, and no vertex was deleted that has more links
than one that is left. -/
structure KeepsBest (size : ℕ) (before after : Graph) : Prop where
  count : after.vs.length = min size before.vs.length
  best : ∀ a ∈ before.vs, a ∉ after.vs → ∀ b ∈ after.vs,
    before.degree (before.vs.idxOf a) ≤ before.degree (before.vs.idxOf b)

/-- How many vertices of `fetched` the slice holds. -/
def cut (fetched size : ℕ) : ℕ := if fetched < size then 2 * fetched - size else fetched - size

theorem deletion_eq (size : ℕ) (g : Graph) :
    deletion g.vs.length size g = g.deleteVertices (lowest g (cut g.vs.length size)) := by
  rw [deletion, sliceTo, lowest, cut, length_byDegree]
  by_cases few : g.vs.length < size
  · rw [if_pos (by omega), if_pos few]
    congr 3
    omega
  · rw [if_neg (by omega), if_neg few]
    congr 3
    omega

theorem length_deletion (size : ℕ) (g : Graph) :
    (deletion g.vs.length size g).vs.length = g.vs.length - cut g.vs.length size := by
  have parts := length_deleteVertices g (nodup_lowest g (cut g.vs.length size))
    fun v => lt_of_mem_lowest g _
  rw [length_lowest] at parts
  rw [deletion_eq]
  omega

/-- Whatever their number, the vertices deleted are those of the lowest degree. -/
theorem best_deletion (size : ℕ) (g : Graph) (nodup : g.vs.Nodup) :
    ∀ a ∈ g.vs, a ∉ (deletion g.vs.length size g).vs → ∀ b ∈ (deletion g.vs.length size g).vs,
      g.degree (g.vs.idxOf a) ≤ g.degree (g.vs.idxOf b) := by
  rw [deletion_eq]
  intro a inside deleted b left
  obtain ⟨w, kept, found⟩ := (mem_deleteVertices g).mp left
  obtain ⟨boundB, rfl⟩ := List.getElem?_eq_some_iff.mp found
  rw [nodup.idxOf_getElem]
  refine degree_le_of_mem_lowest g (cut g.vs.length size) ?_ boundB kept
  by_contra spared
  exact deleted ((mem_deleteVertices g).mpr ⟨g.vs.idxOf a, spared, List.getElem?_idxOf inside⟩)

section Term
variable {S : Type} [Score S]

def fetched (size : ℕ) (artists : ZSet S) : List String := range 0 (size * 3) artists.revSorted

theorem fetched_eq (size : ℕ) (artists : ZSet S) :
    fetched size artists = artists.revSorted.take (size * 3 + 1) :=
  range_front (size * 3) artists.revSorted

theorem length_fetched (size : ℕ) (artists : ZSet S) :
    (fetched size artists).length = min (size * 3 + 1) artists.members.length := by
  rw [fetched_eq, List.length_take, (perm_revSorted artists).length_eq]

theorem nodup_fetched (size : ℕ) (artists : ZSet S) : (fetched size artists).Nodup := by
  have nodup : artists.revSorted.Nodup := (perm_revSorted artists).nodup_iff.mpr artists.nodup
  rw [fetched_eq]
  exact nodup.sublist (List.take_sublist _ _)

/-- For every term, every size and all links between the artists fetched: the step keeps the
best vertices exactly if the term has at least `size` artists, or at most half as many. -/
theorem keepsBest_iff (artists : ZSet S) (size : ℕ) (links : List Edge) :
    KeepsBest size ⟨fetched size artists, links⟩
        (deletion (fetched size artists).length size ⟨fetched size artists, links⟩) ↔
      size ≤ artists.members.length ∨ 2 * artists.members.length ≤ size := by
  have length := length_fetched size artists
  have left := length_deletion size ⟨fetched size artists, links⟩
  dsimp only at left
  constructor
  · intro keeps
    have count := keeps.count
    rw [left, cut] at count
    dsimp only at count
    split_ifs at count <;> omega
  · intro enough
    constructor
    · rw [left, cut]
      dsimp only
      split_ifs <;> omega
    · exact best_deletion size ⟨fetched size artists, links⟩ (nodup_fetched size artists)

def threeArtists : ZSet ℤ := ⟨[("k", 3), ("l", 2), ("m", 1)], by decide⟩

/-- Four artists are asked for and the term has three: two of them are deleted. -/
theorem not_keepsBest :
    ¬ KeepsBest 4 ⟨fetched 4 threeArtists, []⟩
      (deletion (fetched 4 threeArtists).length 4 ⟨fetched 4 threeArtists, []⟩) := by
  intro keeps
  have count := keeps.count
  revert count
  decide +kernel

theorem sent_deletion {F : Type} (P : Platform F) {args : String → Option String}
    {term text : String} {size : ℕ} (named : args "term" = some term)
    (sized : args "size" = some text) (read : int text = some (size : ℤ)) {store : Store S}
    {artists : ZSet S} (stored : store (termArtistsKey term) = some (.zset artists)) {tape : Tape}
    {reply : D3Graph F}
    (ran : (run (machine S) (termSubgraph P args) tape store).1 = .ok (.graph reply)) :
    ∃ links, reply.nodes.map Node.id =
      (deletion (fetched size artists).length size ⟨fetched size artists, links⟩).vs := by
  have script : termSubgraph P args = .call (.zrevrange (termArtistsKey term) 0 (size * 3))
      fun results => do
        let g ← igrapher P results
        return .graph (← d3Dictify P (deletion results.length size g) none) := by
    simp [termSubgraph_eq, arg, intArg, Handler.ofOption, named, sized, read, Handler.zrevrange]
  rw [script, run_call] at ran
  simp only [machine, exec, stored, zrevrangeOf, Except.map] at ran
  have sent : (do
      let g ← igrapher P (fetched size artists)
      return .graph (← d3Dictify P (deletion (fetched size artists).length size g) none) :
        Handler (Response F)).Ensures fun response => ∀ reply, response = .graph reply →
      ∃ links, reply.nodes.map Node.id =
        (deletion (fetched size artists).length size ⟨fetched size artists, links⟩).vs := by
    have vertices : (igrapher P (fetched size artists)).Ensures fun g =>
        g.vs = fetched size artists :=
      (Script.ensures_true _).bind fun acc _ => rfl
    refine vertices.bind fun g same => ?_
    refine (d3Dictify_ensures P _ none).bind fun reply sent => ?_
    intro reply' equal
    obtain rfl := Response.graph.inj equal
    exact ⟨g.es, by rw [sent.1, ← same]⟩
  exact run_ensures (machine S) sent ran reply rfl

end Term

end Phonograph.Server.TermSubgraph
