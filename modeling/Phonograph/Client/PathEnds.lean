import Phonograph.Client.PathLayout

/-! # Laying out a path from elsewhere

`pathPositions` starts from `gv.source` as it is when the reply arrives.  On the
graph of a path it succeeds exactly from the two ends: from a place in between
the walk reaches one end and gets stuck, and an artist that is not on the path
has no place at all. -/

set_option autoImplicit false

namespace Phonograph.Client.PathLayout

open Phonograph.Lib Phonograph.Server.Redis Phonograph.Server.Python
open Phonograph.Server.Database Phonograph.Server.Paths Phonograph.Server.PathLevels
open Phonograph.Server.Igrapher Phonograph.Server.Routes Phonograph.Server.Footprints
open Phonograph.Server.Links Phonograph.Server.Engines Phonograph.Client.Js

/-! ## Where the walk goes -/

section Walk
variable {links : List Edge} {d : ℕ}

theorem walkPath_succ (links : List Edge) : ∀ (k : ℕ) (order : List Place),
    walkPath links (k + 1) order =
      walkPath links k order ++ [nextNode links (walkPath links k order)] := by
  intro k
  induction k with
  | zero => intro order; rfl
  | succ k ih => intro order; rw [walkPath, ih, walkPath]

theorem length_walkPath (links : List Edge) (order : List Place) (k : ℕ) :
    (walkPath links k order).length = order.length + k := by
  induction k with
  | zero => rfl
  | succ k ih => rw [walkPath_succ, List.length_append, ih]; rfl

theorem head_walkPath (links : List Edge) (start : Place) (k : ℕ) :
    (walkPath links k [start])[0]? = some start := by
  induction k with
  | zero => rfl
  | succ k ih =>
      rw [walkPath_succ, List.getElem?_append_left (by rw [length_walkPath]; simp), ih]

/-- From place `m` the walk goes up or down and, once it is at an end, nowhere. -/
theorem walkPath_row (row : Row links d) {m : ℕ} (bound : m ≤ d) : ∀ k : ℕ,
    none ∈ walkPath links k [some (m : ℤ)] ∨
      (m + k ≤ d ∧ walkPath links k [some (m : ℤ)] = trail (fun c => m + c) k) ∨
      (k ≤ m ∧ walkPath links k [some (m : ℤ)] = trail (fun c => m - c) k) := by
  intro k
  induction k with
  | zero => exact Or.inr (Or.inl ⟨bound, rfl⟩)
  | succ k ih =>
      rw [walkPath_succ]
      obtain lost | ⟨le, up⟩ | ⟨le, down⟩ := ih
      · exact Or.inl (List.mem_append_left _ lost)
      · rw [up]
        obtain stuck | ⟨q, next, inside, near, fresh⟩ := nextNode_trail row (fun c => m + c) k
        · rw [stuck]
          exact Or.inl (by simp)
        · right
          rw [next]
          have before := fresh (k - 1) (Nat.sub_le k 1)
          rcases near with back | forth
          · -- Only the first step can go down.
            obtain rfl : k = 0 := by omega
            obtain rfl : q = m - 1 := by omega
            exact Or.inr ⟨by omega, rfl⟩
          · subst forth
            exact Or.inl ⟨inside, (trail_succ (fun c => m + c) k).symm⟩
      · rw [down]
        obtain stuck | ⟨q, next, inside, near, fresh⟩ := nextNode_trail row (fun c => m - c) k
        · rw [stuck]
          exact Or.inl (by simp)
        · right
          rw [next]
          have before := fresh (k - 1) (Nat.sub_le k 1)
          rcases near with back | forth
          · obtain rfl : q = m - (k + 1) := by omega
            exact Or.inr ⟨by omega, (trail_succ (fun c => m - c) k).symm⟩
          · obtain rfl : k = 0 := by omega
            subst forth
            exact Or.inl ⟨inside, rfl⟩

theorem walkPath_ascent (row : Row links d) : ∀ k ≤ d,
    walkPath links k [some ((0 : ℕ) : ℤ)] = trail id k := by
  intro k
  induction k with
  | zero => intro _; rfl
  | succ k ih =>
      intro le
      rw [walkPath_succ, ih (by omega), trail_succ]
      have going : nextNode links (trail id k) ≠ none :=
        nextNode_trail_ne_none row (show id k ≤ d by simp; omega) le (Or.inr rfl)
          fun c le same => by simp at same; omega
      obtain stuck | ⟨q, next, _, near, fresh⟩ := nextNode_trail row id k
      · exact absurd stuck going
      · have before := fresh (k - 1) (Nat.sub_le k 1)
        simp only [id_eq] at near before
        have same : q = k + 1 := by omega
        rw [next, same]
        rfl

end Walk

/-! ## When the layout succeeds -/

section Layout
variable {F : Type}

def Placed (n : ℕ) (place : Place) : Prop := ∃ i < n, place = some ((i : ℕ) : ℤ)

theorem setPos_cases (nodes : List (Node F)) (place : Place) (pos : F × F) :
    (Placed nodes.length place ∧
      ∃ out, setPos nodes place pos = .ok out ∧ out.length = nodes.length) ∨
    (¬ Placed nodes.length place ∧ setPos nodes place pos = .error .typeError) := by
  cases place with
  | none =>
      refine Or.inr ⟨?_, rfl⟩
      rintro ⟨_, _, same⟩
      cases same
  | some z =>
      cases z with
      | negSucc i =>
          refine Or.inr ⟨?_, rfl⟩
          rintro ⟨_, _, same⟩
          cases Option.some.inj same
      | ofNat i =>
          by_cases bound : i < nodes.length
          · left
            refine ⟨⟨i, bound, rfl⟩, nodes.set i { nodes[i] with pos := pos }, ?_, List.length_set⟩
            simp [setPos, bound]
          · right
            constructor
            · rintro ⟨j, inside, same⟩
              obtain rfl : i = j := Int.ofNat.inj (Option.some.inj same)
              exact bound inside
            · simp [setPos, bound]

theorem placeNodes_ok_iff (pathOrder : List Place) (posAt : ℕ → F × F) :
    ∀ (left c : ℕ) (nodes : List (Node F)),
      (∃ out, placeNodes pathOrder posAt left c nodes = .ok out) ↔
        ∀ e < left, Placed nodes.length pathOrder[c + e]?.join := by
  intro left
  induction left with
  | zero => intro c nodes; exact iff_of_true ⟨nodes, rfl⟩ (by simp)
  | succ left ih =>
      intro c nodes
      rw [placeNodes, Nat.forall_lt_succ_left']
      obtain ⟨placed, out, set, length⟩ | ⟨lost, set⟩ :=
        setPos_cases nodes pathOrder[c]?.join (posAt c)
      · rw [set]
        change (∃ last, placeNodes pathOrder posAt left (c + 1) out = .ok last) ↔ _
        rw [ih, length]
        simp only [Nat.add_zero, placed, true_and, Nat.add_assoc, Nat.add_comm 1]
      · rw [set]
        apply iff_of_false
        · rintro ⟨_, same⟩
          cases same
        · rintro ⟨placed, _⟩
          exact lost placed

variable [NatCast F] [Add F] [Sub F] [Mul F] [Div F] [LE F] [DecidableLE F] [LT F] [DecidableLT F]

theorem pathPositions_ok_iff_placed (graph : D3Graph F) (newIds : List String)
    (source : Option String) (width height : F) (length : graph.nodes.length = newIds.length) :
    (∃ result, pathPositions graph newIds source width height = .ok result) ↔
      ∀ c < newIds.length, Placed newIds.length
        (walkPath graph.links (newIds.length - 1) [some (indexOf newIds source)])[c]?.join := by
  have loop := placeNodes_ok_iff
    (walkPath graph.links (newIds.length - 1) [some (indexOf newIds source)])
    (posAt width height newIds.length) newIds.length 0 graph.nodes
  rw [length] at loop
  simp only [Nat.zero_add] at loop
  rw [← loop, pathPositions]
  constructor
  · rintro ⟨result, same⟩
    cases placed : placeNodes (walkPath graph.links (newIds.length - 1)
      [some (indexOf newIds source)]) (posAt width height newIds.length) newIds.length 0
      graph.nodes with
    | ok out => exact ⟨out, rfl⟩
    | error e =>
        rw [placed] at same
        cases same
  · rintro ⟨out, same⟩
    exact ⟨_, by rw [same]; rfl⟩

/-- The reply for a path: its nodes in the order of the path, from the destination,
and the links between consecutive ones. -/
structure PathGraph (graph : D3Graph F) (source destination : String) : Prop where
  nodup : (graph.nodes.map Node.id).Nodup
  first : (graph.nodes.map Node.id).head? = some destination
  last : (graph.nodes.map Node.id).getLast? = some source
  row : Row graph.links (graph.nodes.length - 1)

namespace PathGraph
variable {graph : D3Graph F} {source destination : String} (path : PathGraph graph source destination)
include path

omit [NatCast F] [Add F] [Sub F] [Mul F] [Div F] [LE F] [DecidableLE F] [LT F] [DecidableLT F]

theorem length_nodes : graph.nodes.length = graph.nodes.length - 1 + 1 := by
  have first := path.first
  cases nodes : graph.nodes with
  | nil => simp [nodes] at first
  | cons node rest => rfl

theorem at_zero : (graph.nodes.map Node.id)[0]? = some destination := by
  rw [← List.head?_eq_getElem?]
  exact path.first

theorem at_end : (graph.nodes.map Node.id)[graph.nodes.length - 1]? = some source := by
  have last := path.last
  rwa [List.getLast?_eq_getElem?, List.length_map] at last

theorem indexOf_source :
    indexOf (graph.nodes.map Node.id) (some source) = (graph.nodes.length - 1 : ℕ) := by
  rw [indexOf, if_pos (List.mem_of_getElem? path.at_end), idxOf_of_getElem path.nodup path.at_end]

theorem indexOf_destination : indexOf (graph.nodes.map Node.id) (some destination) = (0 : ℕ) := by
  rw [indexOf, if_pos (List.mem_of_getElem? path.at_zero), idxOf_of_getElem path.nodup path.at_zero]

theorem indexOf_cases (start : Option String) :
    indexOf (graph.nodes.map Node.id) start = -1 ∨
      ∃ m ≤ graph.nodes.length - 1, (graph.nodes.map Node.id)[m]? = start ∧
        indexOf (graph.nodes.map Node.id) start = (m : ℕ) := by
  cases start with
  | none => exact Or.inl rfl
  | some id =>
      by_cases member : id ∈ graph.nodes.map Node.id
      · obtain ⟨m, found⟩ := List.mem_iff_getElem?.mp member
        have bound : m < graph.nodes.length := by
          have inside := (List.getElem?_eq_some_iff.mp found).1
          rwa [List.length_map] at inside
        refine Or.inr ⟨m, by omega, found, ?_⟩
        rw [indexOf, if_pos member, idxOf_of_getElem path.nodup found]
      · exact Or.inl (if_neg member)

end PathGraph

/-- The path is laid out exactly from one of its ends. -/
theorem pathPositions_ok_iff {graph : D3Graph F} {source destination : String}
    (path : PathGraph graph source destination) (start : Option String) (width height : F) :
    (∃ result, pathPositions graph (graph.nodes.map Node.id) start width height = .ok result) ↔
      start = some source ∨ start = some destination := by
  obtain ⟨d, long⟩ : ∃ d, graph.nodes.length = d + 1 := ⟨_, path.length_nodes⟩
  have row : Row graph.links d := by simpa [long] using path.row
  have length : (graph.nodes.map Node.id).length = d + 1 := by rw [List.length_map, long]
  rw [pathPositions_ok_iff_placed _ _ _ _ _ (by rw [List.length_map]), length, Nat.add_sub_cancel]
  constructor
  · intro placed
    obtain lost | ⟨m, bound, found, index⟩ := path.indexOf_cases start
    · obtain ⟨i, _, same⟩ := placed 0 (Nat.succ_pos d)
      rw [lost, head_walkPath] at same
      cases Option.some.inj same
    · rw [long, Nat.add_sub_cancel] at bound
      rw [index] at placed
      obtain lost | ⟨le, _⟩ | ⟨le, _⟩ := walkPath_row row bound d
      · -- The walk is stuck at an end of the path before it has been everywhere.
        exfalso
        obtain ⟨c, here⟩ := List.mem_iff_getElem?.mp lost
        have inside := (List.getElem?_eq_some_iff.mp here).1
        rw [length_walkPath] at inside
        obtain ⟨i, _, same⟩ := placed c (by simpa [Nat.add_comm] using inside)
        rw [here] at same
        cases same
      · obtain rfl : m = 0 := by omega
        exact Or.inr (found.symm.trans path.at_zero)
      · obtain rfl : m = d := Nat.le_antisymm bound le
        have last := path.at_end
        rw [long, Nat.add_sub_cancel] at last
        exact Or.inl (found.symm.trans last)
  · rintro (rfl | rfl)
    · have walked := walkPath_descent row d 0 (by omega)
      rw [Nat.zero_add] at walked
      rw [path.indexOf_source, long, Nat.add_sub_cancel]
      intro c less
      refine ⟨d - c, by omega, ?_⟩
      rw [show [some (d : ℤ)] = descent d 0 from rfl, walked, getElem_descent d (by omega)]
      rfl
    · rw [path.indexOf_destination, walkPath_ascent row d (Nat.le_refl d)]
      intro c less
      exact ⟨c, less, by simp [trail, less]⟩

end Layout

/-! ## The reply of `/path` -/

section Served
variable {F S : Type} [Score S] {P : Platform F} {db : MusicDb S}

theorem pathGraph_of_geodesic (shared : NeighboursShare db) {source destination : String} {d : ℕ}
    {path : Path} (geodesic : Geodesic db.Adj source d path) (head : path.head? = some destination)
    {reply : D3Graph F} (ids : reply.nodes.map Node.id = path) {links : List Edge}
    (rearranged : Rearranged (inducedGraph P db path).es links) :
    PathGraph { reply with links := links } source destination := by
  have length : reply.nodes.length - 1 = d := by
    have same := congrArg List.length ids
    rw [List.length_map, geodesic.length] at same
    omega
  exact {
    nodup := ids ▸ geodesic.nodup
    first := ids ▸ head
    last := ids ▸ geodesic.getLast
    row := length ▸ (row_inducedGraph shared geodesic).rearranged rearranged }

theorem yields_findPaths_geodesic {source destination : String} {d : ℕ} (ne : source ≠ destination)
    (bound : d ≤ 8) (dist : AtDist db.Adj source d destination) :
    ∃ paths, Yields db.store (findPaths P source destination) (some paths) ∧
      ∀ path ∈ paths, Geodesic db.Adj source d path ∧ path.head? = some destination :=
  have nodup : ∀ a, ((db.neighbours a).members).Nodup := fun a => (db.neighbours a).nodup
  ⟨_, yields_findPaths P db.neighbours_kind nodup ne bound dist,
    fun _ picked => (mem_shortestPaths P nodup (dist.pos ne) dist _).mp picked⟩

/-- Whatever was served before and however the links arrive, a graph that `/path`
replies with is that of a path between the two artists. -/
theorem pathGraph_served (P : Platform F) (db : MusicDb S) (shared : NeighboursShare db)
    (info : ∀ artist, ∀ track ∈ (db.tracks artist).members, HasInfo db track)
    (history : List Job) (job : Job) (route : job.request.route = .path)
    {source destination : String} (ofSource : job.request.args "source" = some source)
    (ofDestination : job.request.args "destination" = some destination)
    (ne : source ≠ destination) {reply : D3Graph F}
    (sent : alone P job (served P history db.store) = .ok (.graph reply)) {links : List Edge}
    (rearranged : Rearranged reply.links links) :
    PathGraph { reply with links := links } source destination := by
  have agree := served_agreeOff P history db.store
  rw [alone, serve, route] at sent
  simp only [pathFinder, arg, ofSource, ofDestination, Handler.ofOption, Script.done_bind] at sent
  by_cases near : ∃ d ≤ 8, AtDist db.Adj source d destination
  · obtain ⟨d, bound, dist⟩ := near
    obtain ⟨paths, found, shortest⟩ := yields_findPaths_geodesic (P := P) ne bound dist
    obtain ⟨_, ran, agree⟩ := found _ agree job.tape
    rw [run_bind, ran] at sent
    by_cases empty : paths = []
    · subst empty
      cases sent
    · obtain ⟨_, ran, agree⟩ := found _ agree job.tape
      simp only [Option.getD_some, ne_eq, empty, not_false_eq_true, if_true] at sent
      rw [run_bind, ran] at sent
      simp only [Option.getD_some, Handler.choice, Script.draw_bind, run_draw] at sent
      obtain ⟨path, picked⟩ : ∃ path, paths[job.tape 0 % paths.length]? = some path :=
        ⟨_, List.getElem?_eq_getElem (Nat.mod_lt _ (List.length_pos_iff.mpr empty))⟩
      obtain ⟨geodesic, head⟩ := shortest path (List.mem_of_getElem? picked)
      rw [picked, Handler.ofOption, Script.done_bind, run_bind] at sent
      obtain ⟨_, ran, _⟩ := yields_igrapher (P := P) (hasInfo_common info path) _ agree job.tape.tail
      rw [ran] at sent
      have made : Script.Ensures (fun response : Response F => ∀ g, response = .graph g →
          g.nodes.map Node.id = path ∧ g.links = (inducedGraph P db path).es)
          (d3Dictify P (inducedGraph P db path) none >>= fun g => pure (.graph g) : Handler _) := by
        refine (d3Dictify_ensures P _ none).bind fun g same g' picked => ?_
        cases picked
        exact same
      obtain ⟨ids, same⟩ := run_ensures (machine S) made sent reply rfl
      exact pathGraph_of_geodesic shared geodesic head ids (same ▸ rearranged)
  · have nodup : ∀ a, ((db.neighbours a).members).Nodup := fun a => (db.neighbours a).nodup
    obtain ⟨_, ran, _⟩ := yields_findPaths_none P db.neighbours_kind nodup near _ agree job.tape
    rw [run_bind, ran] at sent
    cases sent

end Served

end Phonograph.Client.PathLayout
