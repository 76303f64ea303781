import Phonograph.Client.Js
import Phonograph.Server.Engines
import Phonograph.Server.Links

/-! # Laying out a path

`pathPositions` and `nextNode` of `phonograph.js`.  The client gets the nodes of
a path and their links in no particular order and rebuilds the order of the
path from its source, one link at a time. -/

set_option autoImplicit false

namespace Phonograph.Client.PathLayout

open Phonograph.Lib Phonograph.Server.Redis Phonograph.Server.Python
open Phonograph.Server.Database Phonograph.Server.Paths Phonograph.Server.PathLevels
open Phonograph.Server.Igrapher Phonograph.Server.Routes Phonograph.Server.Footprints
open Phonograph.Server.Links Phonograph.Server.Engines Phonograph.Client.Js

/-- An entry of `gv.pathOrder`; `none` is `undefined`. -/
abbrev Place := Option ℤ

/-- `n == [place]`: the array becomes a string and the string a number, where
`[undefined]` becomes the empty string and so 0. -/
def equalsArray (n : ℕ) (place : Place) : Bool := (n : ℤ) = place.getD 0

def unvisited (pathOrder : List Place) (n : ℕ) : Bool := some (n : ℤ) ∉ pathOrder

def stepAlong (pathOrder : List Place) (link : Edge) : Option ℤ :=
  let last : Place := pathOrder.getLast?.join
  if equalsArray link.source last || equalsArray link.target last then
    if unvisited pathOrder link.source then some link.source
    else if unvisited pathOrder link.target then some link.target
    else none
  else none

def nextNode (links : List Edge) (pathOrder : List Place) : Place :=
  links.findSome? (stepAlong pathOrder)

/-- The first loop of `pathPositions`. -/
def walkPath (links : List Edge) : ℕ → List Place → List Place
  | 0, pathOrder => pathOrder
  | left + 1, pathOrder => walkPath links left (pathOrder ++ [nextNode links pathOrder])

def indexOf (newIds : List String) : Option String → ℤ
  | some id => if id ∈ newIds then newIds.idxOf id else -1
  | none => -1

section Positions
variable {F : Type} [NatCast F] [Add F] [Sub F] [Mul F] [Div F] [LE F] [DecidableLE F] [LT F]
  [DecidableLT F]

def setPos (nodes : List (Node F)) (place : Place) (pos : F × F) : Except JsErr (List (Node F)) :=
  match place with
  | some (.ofNat i) =>
      match nodes[i]? with
      | some node => .ok (nodes.set i { node with pos := pos })
      | none => .error .typeError
  | _ => .error .typeError

/-- The second loop of `pathPositions`, from place `c` on. -/
def placeNodes (pathOrder : List Place) (posAt : ℕ → F × F) :
    ℕ → ℕ → List (Node F) → Except JsErr (List (Node F))
  | 0, _, nodes => .ok nodes
  | left + 1, c, nodes => do
      placeNodes pathOrder posAt left (c + 1) (← setPos nodes pathOrder[c]?.join (posAt c))

/-- `d3.min([a, b])`, which passes over a NaN. -/
def d3Min (a b : F) : F := if a ≥ a then (if a > b then b else a) else b

def xInt (width : F) (n : ℕ) : F :=
  d3Min ((width - (160 : ℕ)) / ((n : F) - (1 : ℕ))) (width / (5 : ℕ))

def offset (width : F) (n : ℕ) : F :=
  width / (2 : ℕ) - xInt width n * ((n : F) - (1 : ℕ)) / (2 : ℕ)

def posAt (width height : F) (n c : ℕ) : F × F :=
  (offset width n + (c : F) * xInt width n, height / (2 : ℕ) - (10 : ℕ))

def pathPositions (graph : D3Graph F) (newIds : List String) (source : Option String)
    (width height : F) : Except JsErr (List Place × D3Graph F) := do
  let n := newIds.length
  let pathOrder := walkPath graph.links (n - 1) [some (indexOf newIds source)]
  let nodes ← placeNodes pathOrder (posAt width height n) n 0 graph.nodes
  return (pathOrder, { graph with nodes := nodes })

end Positions

/-! ## A row of links

The links of a path on nodes `0, …, d` join exactly the consecutive ones. -/

structure Row (links : List Edge) (d : ℕ) : Prop where
  bounded : ∀ e ∈ links, e.source ≤ d ∧ e.target ≤ d
  consecutive : ∀ e ∈ links, e.source + 1 = e.target ∨ e.target + 1 = e.source
  complete : ∀ m < d, ∃ e ∈ links, (e.source = m ∧ e.target = m + 1) ∨
    (e.source = m + 1 ∧ e.target = m)

def trail (f : ℕ → ℕ) (k : ℕ) : List Place := (List.range (k + 1)).map fun c => some (f c : ℤ)

theorem trail_succ (f : ℕ → ℕ) (k : ℕ) : trail f (k + 1) = trail f k ++ [some (f (k + 1) : ℤ)] := by
  rw [trail, List.range_succ, List.map_append]
  rfl

theorem getLast_trail (f : ℕ → ℕ) (k : ℕ) : (trail f k).getLast?.join = some (f k : ℤ) := by
  cases k with
  | zero => rfl
  | succ k => rw [trail_succ, List.getLast?_concat]; rfl

theorem mem_trail {f : ℕ → ℕ} {k n : ℕ} : some (n : ℤ) ∈ trail f k ↔ ∃ c ≤ k, f c = n := by
  simp only [trail, List.mem_map, List.mem_range, Nat.lt_succ_iff, Option.some.injEq,
    Int.natCast_inj]

def descent (d k : ℕ) : List Place := trail (fun c => d - c) k

theorem descent_succ (d k : ℕ) :
    descent d (k + 1) = descent d k ++ [some ((d - (k + 1) : ℕ) : ℤ)] :=
  trail_succ _ k

theorem getElem_descent (d : ℕ) {k c : ℕ} (le : c ≤ k) :
    (descent d k)[c]? = some (some ((d - c : ℕ) : ℤ)) := by
  simp [descent, trail, Nat.lt_succ_of_le le]

theorem place_of_getElem {d c i : ℕ} (found : (descent d d)[c]? = some (some (i : ℤ))) :
    c ≤ d ∧ i = d - c := by
  have bound : c < (descent d d).length := (List.getElem?_eq_some_iff.mp found).1
  have le : c ≤ d := by simpa [descent, trail, Nat.lt_succ_iff] using bound
  rw [getElem_descent d le, Option.some.injEq, Option.some.injEq, Int.natCast_inj] at found
  exact ⟨le, found.symm⟩

theorem descent_self (d : ℕ) :
    descent d d = ((List.range (d + 1)).map fun i : ℕ => some (i : ℤ)).reverse := by
  rw [← List.map_reverse, List.range_eq_range', List.reverse_range', List.map_map, descent, trail]
  refine List.map_congr_left fun c _ => ?_
  simp only [Function.comp_apply]
  congr 2
  omega

section Walk
variable {links : List Edge} {d : ℕ}

theorem nextNode_trail (row : Row links d) (f : ℕ → ℕ) (k : ℕ) :
    nextNode links (trail f k) = none ∨ ∃ q : ℕ, nextNode links (trail f k) = some (q : ℤ) ∧
      q ≤ d ∧ (q + 1 = f k ∨ f k + 1 = q) ∧ ∀ c ≤ k, f c ≠ q := by
  cases found : nextNode links (trail f k) with
  | none => exact Or.inl rfl
  | some place =>
      obtain ⟨link, member, step⟩ := List.exists_of_findSome?_eq_some found
      have next := row.consecutive link member
      have bounds := row.bounded link member
      simp only [stepAlong, getLast_trail, equalsArray, unvisited, mem_trail, Option.getD_some,
        Int.natCast_inj, Bool.or_eq_true, decide_eq_true_eq] at step
      have fresh : ∀ {q : ℕ}, (¬ ∃ c ≤ k, f c = q) → ∀ c ≤ k, f c ≠ q :=
        fun unvisited c le same => unvisited ⟨c, le, same⟩
      right
      split at step
      · split at step
        · next unvisited =>
            obtain rfl := Option.some.inj step
            have away := fresh unvisited k (Nat.le_refl k)
            exact ⟨link.source, rfl, by omega, by omega, fresh unvisited⟩
        · split at step
          · next unvisited =>
              obtain rfl := Option.some.inj step
              have away := fresh unvisited k (Nat.le_refl k)
              exact ⟨link.target, rfl, by omega, by omega, fresh unvisited⟩
          · cases step
      · cases step

theorem nextNode_trail_ne_none (row : Row links d) {f : ℕ → ℕ} {k q : ℕ} (bound : f k ≤ d)
    (le : q ≤ d) (near : q + 1 = f k ∨ f k + 1 = q) (fresh : ∀ c ≤ k, f c ≠ q) :
    nextNode links (trail f k) ≠ none := by
  intro stuck
  have unvisited : ¬ ∃ c ≤ k, f c = q := fun ⟨c, le, same⟩ => fresh c le same
  obtain ⟨link, member, ends⟩ := row.complete (min q (f k)) (by omega)
  have step := List.findSome?_eq_none_iff.mp stuck link member
  simp only [stepAlong, getLast_trail, equalsArray, Client.PathLayout.unvisited, mem_trail,
    Option.getD_some, Int.natCast_inj, Bool.or_eq_true, decide_eq_true_eq] at step
  rw [if_pos (by omega)] at step
  have end' : link.source = q ∨ link.target = q := by omega
  rcases end' with rfl | rfl
  · rw [if_pos unvisited] at step
    cases step
  · split at step
    · cases step
    · cases step

theorem nextNode_descent (row : Row links d) {k : ℕ} (less : k < d) :
    nextNode links (descent d k) = some ((d - (k + 1) : ℕ) : ℤ) := by
  have going : nextNode links (descent d k) ≠ none :=
    nextNode_trail_ne_none row (by omega) (by omega : d - (k + 1) ≤ d) (by omega) (by omega)
  obtain stuck | ⟨q, next, _, near, fresh⟩ := nextNode_trail row (fun c => d - c) k
  · exact absurd stuck going
  · have other := fresh (k - 1) (Nat.sub_le k 1)
    have same : q = d - (k + 1) := by omega
    rw [descent, next, same]

theorem walkPath_descent (row : Row links d) : ∀ left k : ℕ, k + left ≤ d →
    walkPath links left (descent d k) = descent d (k + left) := by
  intro left
  induction left with
  | zero => intro k _; rfl
  | succ left ih =>
      intro k le
      rw [walkPath, nextNode_descent row (by omega), ← descent_succ, ih (k + 1) (by omega)]
      congr 1
      omega

variable {F : Type}

def placedFrom (d : ℕ) (posAt : ℕ → F × F) (c : ℕ) (nodes : List (Node F)) : List (Node F) :=
  nodes.mapIdx fun i node => if i + c ≤ d then { node with pos := posAt (d - i) } else node

theorem placeNodes_descent (posAt : ℕ → F × F) : ∀ (left c : ℕ) (nodes : List (Node F)),
    left + c = d + 1 → nodes.length = d + 1 →
    placeNodes (descent d d) posAt left c nodes = .ok (placedFrom d posAt c nodes) := by
  intro left
  induction left with
  | zero =>
      intro c nodes sum length
      refine congrArg Except.ok (List.ext_getElem? fun i => ?_)
      have late : ¬ i + c ≤ d := by omega
      simp [placedFrom, late]
  | succ left ih =>
      intro c nodes sum length
      have inside : d - c < nodes.length := by omega
      have set : setPos nodes (descent d d)[c]?.join (posAt c) =
          .ok (nodes.set (d - c) { nodes[d - c] with pos := posAt c }) := by
        rw [getElem_descent d (by omega : c ≤ d)]
        simp [setPos, inside]
      rw [placeNodes, set]
      refine (ih (c + 1) _ (by omega) (by simpa using length)).trans (congrArg Except.ok ?_)
      refine List.ext_getElem? fun i => ?_
      simp only [placedFrom, List.getElem?_mapIdx, List.getElem?_set]
      by_cases here : d - c = i
      · subst here
        have early : d - c + c ≤ d := by omega
        have place : d - (d - c) = c := by omega
        have late : ¬ d - c + (c + 1) ≤ d := by omega
        simp [inside, early, late, place]
      · have same : i + (c + 1) ≤ d ↔ i + c ≤ d := by omega
        simp [here, same]

end Walk

/-! ## The links of a shortest path -/

section Path
variable {F S : Type} [Score S] {P : Platform F} {db : MusicDb S}

/-- Neighbours are the artists with a common track. -/
def NeighboursShare (db : MusicDb S) : Prop := ∀ a b, db.Adj a b ↔
  a ≠ b ∧ ∃ track ∈ (db.tracks a).members, track ∈ (db.tracks b).members

theorem hasInfo_common (info : ∀ artist, ∀ track ∈ (db.tracks artist).members, HasInfo db track)
    (path : Path) : ∀ pair ∈ pairs path, ∀ track ∈ (common db pair.1 pair.2).head?, HasInfo db track :=
  fun pair _ track first => info pair.1 track ((mem_common db).mp (List.mem_of_mem_head? first)).1

theorem row_inducedGraph (shared : NeighboursShare db) {i : String} {d : ℕ} {path : Path}
    (geodesic : Geodesic db.Adj i d path) : Row (inducedGraph P db path).es d := by
  have nodup := geodesic.nodup
  have length := geodesic.length
  have ends : ∀ e ∈ (inducedGraph P db path).es, e.source + 1 = e.target ∧ e.target ≤ d := by
    intro e member
    obtain ⟨⟨a, b⟩, listed, rfl⟩ := List.mem_map.mp member
    obtain ⟨pair, joined⟩ := List.mem_filter.mp listed
    obtain ⟨m, n, less, left, right⟩ := mem_pairs.mp pair
    obtain ⟨track, ofA, ofB⟩ := linked_iff.mp joined
    have adj : db.Adj b a := (shared b a).mpr ⟨(ne_of_mem_pairs nodup pair).symm, track, ofB, ofA⟩
    have next := geodesic.chordless less left right adj
    have bound : n < path.length := (List.getElem?_eq_some_iff.mp right).1
    simp only [link, idxOf_of_getElem nodup left, idxOf_of_getElem nodup right]
    omega
  refine ⟨fun e member => ?_, fun e member => Or.inl (ends e member).1, fun m less => ?_⟩
  · have := ends e member
    omega
  · obtain ⟨far, left⟩ : ∃ a, path[m]? = some a :=
      ⟨_, List.getElem?_eq_getElem (by omega)⟩
    obtain ⟨near, right⟩ : ∃ a, path[m + 1]? = some a :=
      ⟨_, List.getElem?_eq_getElem (by omega)⟩
    obtain ⟨_, track, ofNear, ofFar⟩ := (shared near far).mp (geodesic.edge m near far left right)
    refine ⟨link P db path (far, near), List.mem_map_of_mem (List.mem_filter.mpr ⟨?_, ?_⟩),
      Or.inl ⟨idxOf_of_getElem nodup left, idxOf_of_getElem nodup right⟩⟩
    · exact mem_pairs.mpr ⟨m, m + 1, m.lt_succ_self, left, right⟩
    · exact linked_iff.mpr ⟨track, ofFar, ofNear⟩

end Path

def turn (e : Edge) : Edge := { e with source := e.target, target := e.source }

/-- The same links in some order, some of them turned round. -/
def Rearranged (links links' : List Edge) : Prop :=
  ∃ turned, List.Forall₂ (fun e e' => e' = e ∨ e' = turn e) links turned ∧ turned.Perm links'

private theorem exists_of_forall₂ {α β : Type} {R : α → β → Prop} {xs : List α} {ys : List β}
    (h : List.Forall₂ R xs ys) : ∀ x ∈ xs, ∃ y ∈ ys, R x y := by
  induction h with
  | nil => intro x member; cases member
  | cons first _ ih =>
      intro x member
      rcases List.mem_cons.mp member with rfl | member
      · exact ⟨_, List.mem_cons_self, first⟩
      · obtain ⟨y, inside, related⟩ := ih x member
        exact ⟨y, List.mem_cons_of_mem _ inside, related⟩

theorem Row.rearranged {links links' : List Edge} {d : ℕ} (row : Row links d)
    (h : Rearranged links links') : Row links' d := by
  obtain ⟨turned, each, perm⟩ := h
  have back : ∀ e' ∈ links', ∃ e ∈ links, e' = e ∨ e' = turn e := fun e' member =>
    exists_of_forall₂ each.flip e' (perm.mem_iff.mpr member)
  have forth : ∀ e ∈ links, ∃ e' ∈ links', e' = e ∨ e' = turn e := fun e member => by
    obtain ⟨e', inside, related⟩ := exists_of_forall₂ each e member
    exact ⟨e', perm.mem_iff.mp inside, related⟩
  refine ⟨fun e' member => ?_, fun e' member => ?_, fun m less => ?_⟩
  · obtain ⟨e, inside, rfl | rfl⟩ := back e' member
    · exact row.bounded _ inside
    · exact (row.bounded e inside).symm
  · obtain ⟨e, inside, rfl | rfl⟩ := back e' member
    · exact row.consecutive _ inside
    · exact (row.consecutive e inside).symm
  · obtain ⟨e, inside, ends⟩ := row.complete m less
    obtain ⟨e', member, rfl | rfl⟩ := forth e inside
    · exact ⟨e', member, ends⟩
    · exact ⟨turn e, member, ends.symm.imp And.symm And.symm⟩

/-! ## The layout -/

def idAt {F : Type} (nodes : List (Node F)) : Place → Option String
  | some (.ofNat i) => (nodes[i]?).map Node.id
  | _ => none

theorem map_idAt_range {F : Type} (nodes : List (Node F)) :
    (List.range nodes.length).map (fun i : ℕ => idAt nodes (some (i : ℤ))) =
      (nodes.map Node.id).map some := by
  refine List.ext_getElem (by simp) fun i _ bound => ?_
  have inside : i < nodes.length := by simpa using bound
  simp [idAt, inside]

section Layout
variable {F : Type} [NatCast F] [Add F] [Sub F] [Mul F] [Div F] [LE F] [DecidableLE F] [LT F]
  [DecidableLT F]

/-- The nodes are laid out in the order of the path, written from its far end. -/
structure LaidOut (graph laid : D3Graph F) (path : Path) (width height : F)
    (pathOrder : List Place) :
    Prop where
  perm : pathOrder.Perm ((List.range path.length).map fun i : ℕ => some (i : ℤ))
  along : pathOrder.map (idAt graph.nodes) = path.reverse.map some
  position : ∀ c i : ℕ, pathOrder[c]? = some (some (i : ℤ)) →
    (laid.nodes[i]?).map Node.pos = some
      (offset width path.length + (c : F) * xInt width path.length, height / (2 : ℕ) - (10 : ℕ))
  joined : ∀ c c' i i' : ℕ, pathOrder[c]? = some (some (i : ℤ)) →
    pathOrder[c']? = some (some (i' : ℤ)) →
    ((∃ link ∈ graph.links, (link.source = i ∧ link.target = i') ∨
      (link.source = i' ∧ link.target = i)) ↔ c' = c + 1 ∨ c = c' + 1)

theorem pathPositions_row (graph : D3Graph F) {path : Path} {d : ℕ} {source : String}
    (ids : graph.nodes.map Node.id = path) (nodup : path.Nodup) (length : path.length = d + 1)
    (last : path.getLast? = some source) (row : Row graph.links d) (width height : F) :
    ∃ laid, pathPositions graph (graph.nodes.map Node.id) (some source) width height =
      .ok (descent d d, laid) ∧ LaidOut graph laid path width height (descent d d) := by
  have start : indexOf path (some source) = d := by
    have here : path[d]? = some source := by
      rw [List.getLast?_eq_getElem?, length] at last
      exact last
    rw [indexOf, if_pos (List.mem_of_getElem? here), idxOf_of_getElem nodup here]
  have nodes : graph.nodes.length = d + 1 := by
    rw [← length, ← ids, List.length_map]
  have walked : walkPath graph.links d [some (d : ℤ)] = descent d d := by
    have run := walkPath_descent row d 0 (by omega)
    rw [Nat.zero_add] at run
    exact run
  refine ⟨{ graph with nodes := placedFrom d (posAt width height (d + 1)) 0 graph.nodes }, ?_, ?_⟩
  · rw [ids, pathPositions, start, length, Nat.add_sub_cancel, walked]
    simp only [placeNodes_descent (posAt width height (d + 1)) (d + 1) 0 _ rfl nodes]
    rfl
  refine ⟨?_, ?_, fun c i found => ?_, fun c c' i i' found found' => ?_⟩
  · rw [descent_self, length]
    exact List.reverse_perm _
  · rw [descent_self, List.map_reverse, List.map_reverse, ← ids, ← map_idAt_range, nodes,
      List.map_map]
    rfl
  · obtain ⟨le, rfl⟩ := place_of_getElem found
    have back : d - (d - c) = c := by omega
    have inside : d - c < graph.nodes.length := by omega
    simp [placedFrom, posAt, back, inside, length]
  · obtain ⟨le, rfl⟩ := place_of_getElem found
    obtain ⟨le', rfl⟩ := place_of_getElem found'
    constructor
    · rintro ⟨link, member, ends⟩
      have next := row.consecutive link member
      omega
    · rintro (rfl | rfl)
      · obtain ⟨link, member, ends⟩ := row.complete (d - (c + 1)) (by omega)
        exact ⟨link, member, by omega⟩
      · obtain ⟨link, member, ends⟩ := row.complete (d - (c' + 1)) (by omega)
        exact ⟨link, member, by omega⟩

/-- For every path that `find_paths` offers, `igrapher` returns a graph; whatever
the order of the links in the reply and the naming of their ends, the client
lays its nodes out from the source to the destination along the path. -/
theorem pathPositions_along_path {S : Type} [Score S] (P : Platform F) (db : MusicDb S)
    (shared : NeighboursShare db)
    (info : ∀ artist, ∀ track ∈ (db.tracks artist).members, HasInfo db track)
    (source destination : String) (ne : source ≠ destination) (history : List Job) (tape : Tape)
    (paths : List Path)
    (found : (run (machine S) (findPaths P source destination) tape
      (served P history db.store)).1 = .ok (some paths))
    (path : Path) (picked : path ∈ paths) :
    path.head? = some destination ∧ path.getLast? = some source ∧
    ∃ g after,
      run (machine S) (igrapher P path) tape (served P history db.store) = (.ok g, tape, after) ∧
      ∀ (tape' : Tape) (origin : Option String) (reply : D3Graph F),
        (run (machine S) (d3Dictify P g origin) tape' after).1 = .ok reply →
        ∀ (links : List Edge), Rearranged reply.links links → ∀ width height : F,
          ∃ pathOrder laid,
            pathPositions { reply with links := links } (reply.nodes.map Node.id) (some source)
              width height = .ok (pathOrder, laid) ∧
            LaidOut { reply with links := links } laid path width height pathOrder := by
  have agree := served_agreeOff P history db.store
  have nodup : ∀ a, ((db.neighbours a).members).Nodup := fun a => (db.neighbours a).nodup
  obtain ⟨d, pos, dist, rfl⟩ := findPaths_ok P db.neighbours_kind nodup ne agree found
  obtain ⟨geodesic, head⟩ := (mem_shortestPaths P nodup pos dist _).mp picked
  refine ⟨head, geodesic.getLast, ?_⟩
  obtain ⟨after, ran, _⟩ := yields_igrapher (P := P) (hasInfo_common info path) _ agree tape
  refine ⟨_, after, ran, fun tape' origin reply sent links rearranged width height => ?_⟩
  obtain ⟨ids, same⟩ := run_ensures (machine S) (d3Dictify_ensures P _ origin) sent
  have row : Row links d := (same ▸ row_inducedGraph shared geodesic : Row reply.links d).rearranged
    rearranged
  obtain ⟨laid, result, layout⟩ := pathPositions_row { reply with links := links } ids
    geodesic.nodup geodesic.length geodesic.getLast row width height
  exact ⟨_, laid, result, layout⟩

end Layout

theorem neighboursShare_row : NeighboursShare rowDb := by
  have listed : ∀ a ∈ ["a", "b", "c"], ∀ b ∈ ["a", "b", "c"],
      b ∈ (rowDb.neighbours a).members ↔
        a ≠ b ∧ ∃ track ∈ (rowDb.tracks a).members, track ∈ (rowDb.tracks b).members := by
    decide +kernel
  have inside : ∀ a ∈ ["a", "b", "c"], ∀ b ∈ (rowDb.neighbours a).members, b ∈ ["a", "b", "c"] := by
    decide +kernel
  intro a b
  by_cases left : a ∈ ["a", "b", "c"]
  · by_cases right : b ∈ ["a", "b", "c"]
    · exact listed a left b right
    · rw [(rowDb_unlisted right).2]
      exact ⟨fun adj => absurd (inside a left b adj) right, fun ⟨_, _, _, shared⟩ => by cases shared⟩
  · rw [MusicDb.Adj, (rowDb_unlisted left).1, (rowDb_unlisted left).2]
    simp

theorem hasInfo_row (artist : String) : ∀ track ∈ (rowDb.tracks artist).members,
    HasInfo rowDb track := by
  have listed : ∀ a ∈ ["a", "b", "c"], ∀ track ∈ (rowDb.tracks a).members, HasInfo rowDb track := by
    decide +kernel
  by_cases left : artist ∈ ["a", "b", "c"]
  · exact listed artist left
  · rw [(rowDb_unlisted left).2]
    simp

def rowReply : D3Graph ℤ where
  nodes := [⟨"c", "C", 8, none, (0, 0)⟩, ⟨"b", "B", 61, none, (0, 0)⟩, ⟨"a", "A", 51, none, (0, 0)⟩]
  links := [⟨0, 1, 1, ⟨"u", "U", "30", [some "B", some "C"]⟩⟩,
    ⟨1, 2, 1, ⟨"t", "T", "40", [some "A", some "B"]⟩⟩]
  origin := none

def turnedReply : D3Graph ℤ := { rowReply with
  links := [⟨1, 2, 1, ⟨"t", "T", "40", [some "A", some "B"]⟩⟩,
    turn ⟨0, 1, 1, ⟨"u", "U", "30", [some "B", some "C"]⟩⟩] }

theorem pathPositions_along_row : ∃ laid,
    pathPositions turnedReply ["c", "b", "a"] (some "a") 1160 420 =
      .ok ([some 2, some 1, some 0], laid) ∧
    LaidOut turnedReply laid ["c", "b", "a"] 1160 420 [some 2, some 1, some 0] := by
  obtain ⟨_, _, g, after, ran, along⟩ := pathPositions_along_path Platform.plain rowDb
    neighboursShare_row hasInfo_row "a" "c" (by decide) [] (fun _ => 0) [["c", "b", "a"]]
    (by decide +kernel) _ List.mem_cons_self
  have graph : g = ⟨["c", "b", "a"], rowReply.links⟩ := by
    have result := congrArg Prod.fst ran
    refine (Except.ok.inj (Eq.trans ?_ result)).symm
    decide +kernel
  have store : _ = after := congrArg (fun result => result.2.2) ran
  have sent : (run (machine ℤ) (d3Dictify Platform.plain g none) (fun _ => 0) after).1 =
      .ok rowReply := by
    rw [graph, ← store]
    decide +kernel
  have rearranged : Rearranged rowReply.links turnedReply.links :=
    ⟨turnedReply.links.reverse, .cons (Or.inr rfl) (.cons (Or.inl rfl) .nil), List.Perm.swap _ _ _⟩
  obtain ⟨pathOrder, laid, result, layout⟩ := along _ none rowReply sent _ rearranged 1160 420
  have order : pathOrder = [some 2, some 1, some 0] := by
    have places := congrArg (Except.map Prod.fst) result
    refine (Except.ok.inj (Eq.trans ?_ places)).symm
    decide +kernel
  subst order
  exact ⟨laid, result, layout⟩

end Phonograph.Client.PathLayout
