import Phonograph.Client.Drawing

/-! # Runs of the page and its map

The replies of a run are drawn over what the transitions of earlier replies have not
taken out yet, which they do at any time later.  `scenes_right_iff` gives the runs in
which the map always shows the graph that the page is at. -/

set_option autoImplicit false

namespace Phonograph.Client.Scenes

open Phonograph.Lib Phonograph.Server.Igrapher Phonograph.Client.Js Phonograph.Client.PathLayout
open Phonograph.Client.View Phonograph.Client.Drawing

/-! ## The artists of a layout -/

section Layout
variable {F : Type}

theorem map_id_setPos {nodes nodes' : List (Node F)} {place : Place} {pos : F × F}
    (placed : setPos nodes place pos = .ok nodes') : nodes'.map Node.id = nodes.map Node.id := by
  rcases place with _ | (i | i)
  · cases placed
  · cases found : nodes[i]? with
    | none =>
        simp [setPos, found] at placed
    | some node =>
        simp only [setPos, found, Except.ok.injEq] at placed
        obtain ⟨lt, rfl⟩ := List.getElem?_eq_some_iff.mp found
        have inside : i < (nodes.map Node.id).length := by simpa using lt
        have same := List.set_getElem_self inside
        rw [List.getElem_map] at same
        rw [← placed, List.map_set]
        exact same
  · cases placed

theorem map_id_placeNodes (pathOrder : List Place) (posAt : ℕ → F × F) (left : ℕ) :
    ∀ (c : ℕ) {nodes nodes' : List (Node F)}, placeNodes pathOrder posAt left c nodes = .ok nodes' →
      nodes'.map Node.id = nodes.map Node.id := by
  induction left with
  | zero =>
      intro c nodes nodes' placed
      rw [Except.ok.inj placed]
  | succ left ih =>
      intro c nodes nodes' placed
      rw [placeNodes] at placed
      cases first : setPos nodes pathOrder[c]?.join (posAt c) with
      | error error =>
          rw [first] at placed
          cases placed
      | ok middle =>
          rw [first] at placed
          exact (ih (c + 1) placed).trans (map_id_setPos first)

variable [NatCast F] [Add F] [Sub F] [Mul F] [Div F] [LE F] [DecidableLE F] [LT F] [DecidableLT F]
variable {graph : D3Graph F} {source : Option String} {width height : F}

theorem map_id_pathPositions {newIds : List String} {result : List Place × D3Graph F}
    (ok : pathPositions graph newIds source width height = .ok result) :
    result.2.nodes.map Node.id = graph.nodes.map Node.id := by
  unfold pathPositions at ok
  cases placed : placeNodes (walkPath graph.links (newIds.length - 1) [some (indexOf newIds source)])
      (posAt width height newIds.length) newIds.length 0 graph.nodes with
  | error error =>
      simp only [placed] at ok
      cases ok
  | ok nodes =>
      simp only [placed] at ok
      obtain rfl := Except.ok.inj ok
      exact map_id_placeNodes _ _ _ _ placed

/-- A rotation moves the nodes and nothing else of a graph. -/
def KeepsArtists (optimiseRotation : Rotation F) : Prop :=
  ∀ oldPos newPos graph,
    (optimiseRotation oldPos newPos graph).nodes.map Node.id = graph.nodes.map Node.id

theorem map_id_layOut {optimiseRotation : Rotation F} (keeps : KeepsArtists optimiseRotation)
    {route : Route} {old : Option (D3Graph F)} {laid : Layout × D3Graph F}
    (ok : layOut optimiseRotation route source old graph width height = .ok laid) :
    laid.2.nodes.map Node.id = graph.nodes.map Node.id := by
  rw [layOut] at ok
  split_ifs at ok with path
  · cases placed : pathPositions graph (graph.nodes.map Node.id) source width height with
    | error error =>
        rw [placed] at ok
        cases ok
    | ok result =>
        rw [placed] at ok
        obtain rfl := Except.ok.inj ok
        exact map_id_pathPositions placed
  · obtain rfl := Except.ok.inj ok
    exact keeps _ _ graph

end Layout

/-! ## The scene -/

structure Scene (F : Type) where
  page : Page F
  canvas : Canvas F
  scale : Scale F

/-- An event of the page, or the end of a transition that takes an old group or line out. -/
inductive Happening (F : Type) where
  | event (event : Event F)
  | groupRemoved (index : ℕ)
  | lineRemoved (index : ℕ)

section
variable {F : Type}

def Scene.initial : Scene F := ⟨.initial, .empty, id⟩

/-- The graph on display, empty before the first reply. -/
def graphOf (v : Page F) : D3Graph F := (v.newGraph.map Shown.graph).getD ⟨[], [], none⟩

def oldIds (v : Page F) : List String := (graphOf v).nodes.map Node.id

def Shows (s : Scene F) : Prop := Right s.scale (graphOf s.page) s.canvas

variable [NatCast F] [Add F] [Sub F] [Mul F] [Div F] [LE F] [DecidableLE F] [LT F] [DecidableLT F]
variable (optimiseRotation : Rotation F)

abbrev Scales (F : Type) := Layout → F → F → D3Graph F → Scale F

variable (scales : Scales F)

def drawnBy (v : Page F) : Event F → Option (Scale F × D3Graph F)
  | .reply index graph width height =>
      (v.inFlight[index]?).bind fun _ =>
        (layOut optimiseRotation v.gv.route v.gv.source (v.newGraph.map Shown.graph) graph width
          height).toOption.map fun laid => (scales laid.1 width height laid.2, laid.2)
  | _ => none

def sceneAfter (s : Scene F) : Happening F → Scene F
  | .event event =>
      match drawnBy optimiseRotation scales s.page event with
      | none => { s with page := after optimiseRotation s.page event }
      | some (scale, graph) =>
          ⟨after optimiseRotation s.page event, drawGraph scale (oldIds s.page) graph s.canvas, scale⟩
  | .groupRemoved index => { s with canvas := removeGroup s.canvas index }
  | .lineRemoved index => { s with canvas := removeLine s.canvas index }

/-! ## The graph of the page -/

variable {optimiseRotation scales} {v : Page F}

theorem newGraph_callback (v : Page F) (request : Request) (graph : D3Graph F) (width height : F) :
    (callback optimiseRotation v request graph width height).newGraph =
      ((layOut optimiseRotation v.gv.route v.gv.source (v.newGraph.map Shown.graph) graph width
        height).toOption.elim v.newGraph fun laid => some ⟨request, laid.1, laid.2⟩) := by
  have shown : ∀ gv : Gv, gv.route = v.gv.route → gv.source = v.gv.source →
      (startVis optimiseRotation { v with gv := gv } request graph width height).newGraph =
        ((layOut optimiseRotation v.gv.route v.gv.source (v.newGraph.map Shown.graph) graph width
          height).toOption.elim v.newGraph fun laid => some ⟨request, laid.1, laid.2⟩) := by
    intro gv route source
    simp only [startVis, route, source]
    cases layOut optimiseRotation v.gv.route v.gv.source (v.newGraph.map Shown.graph) graph width height with
    | error error => rfl
    | ok laid => rfl
  rw [callback]
  split
  · exact shown _ rfl rfl
  · exact shown _ rfl rfl

theorem graphOf_after (v : Page F) (event : Event F) :
    graphOf (after optimiseRotation v event) =
      ((drawnBy optimiseRotation scales v event).map Prod.snd).getD (graphOf v) := by
  cases event with
  | reply index graph width height =>
      cases found : v.inFlight[index]? with
      | none => simp [after, drawnBy, found]
      | some request =>
          simp only [after, drawnBy, found, Option.bind_some, graphOf, newGraph_callback]
          cases layOut optimiseRotation v.gv.route v.gv.source (v.newGraph.map Shown.graph) graph width
            height with
          | error error => rfl
          | ok laid => rfl
  | artist value => rfl
  | term value => rfl
  | source value => rfl
  | destination value => rfl
  | search => rfl
  | genre newGenre =>
      rw [after]
      split_ifs <;> rfl
  | size newSize =>
      rw [after]
      split_ifs <;> rfl
  | doubleClick id =>
      rw [after]
      split_ifs <;> rfl
  | clickNode id =>
      rw [after]
      split_ifs <;> rfl
  | clickLink =>
      rw [after]
      split_ifs <;> rfl
  | animationEnd =>
      rw [after]
      split_ifs <;> rfl

/-! ## One happening -/

/-- The groups left over from before a reply are drawn as its first nodes are. -/
def Fits (optimiseRotation : Rotation F) (scales : Scales F) (s : Scene F) : Happening F → Prop
  | .event event => ∀ scale graph, drawnBy optimiseRotation scales s.page event = some (scale, graph) →
      (leftOver (oldIds s.page) s.canvas).map (fun g => (g.drawn, g.place)) <+:
        graph.nodes.map fun n => (n, scale n.pos)
  | _ => True

/-- A reply comes when no old group is left on the map. -/
def Quiet (optimiseRotation : Rotation F) (scales : Scales F) (s : Scene F) : Happening F → Prop
  | .event event => (drawnBy optimiseRotation scales s.page event).isSome →
      ∀ group ∈ s.canvas.groups, group.cls = .node
  | _ => True

instance (optimiseRotation : Rotation F) (scales : Scales F) (s : Scene F) :
    ∀ happening, Decidable (Quiet optimiseRotation scales s happening)
  | .event event => inferInstanceAs
      (Decidable ((drawnBy optimiseRotation scales s.page event).isSome →
        ∀ group ∈ s.canvas.groups, group.cls = .node))
  | .groupRemoved _ => isTrue trivial
  | .lineRemoved _ => isTrue trivial

def Listed : Happening F → Prop
  | .event (.reply _ graph _ _) => (graph.nodes.map Node.id).Nodup
  | _ => True

theorem nodup_drawnBy (keeps : KeepsArtists optimiseRotation) {event : Event F}
    (listed : Listed (.event event)) {scale : Scale F} {graph : D3Graph F}
    (drawn : drawnBy optimiseRotation scales v event = some (scale, graph)) :
    (graph.nodes.map Node.id).Nodup := by
  cases event with
  | reply index reply width height =>
      obtain ⟨request, -, laid⟩ := Option.bind_eq_some_iff.mp drawn
      obtain ⟨result, ok, same⟩ := Option.map_eq_some_iff.mp laid
      obtain ⟨-, rfl⟩ := Prod.mk.inj same
      cases placed : layOut optimiseRotation v.gv.route v.gv.source (v.newGraph.map Shown.graph) reply
          width height with
      | error error =>
          rw [placed] at ok
          cases ok
      | ok laid =>
          rw [placed] at ok
          obtain rfl := Option.some.inj ok
          rw [map_id_layOut keeps placed]
          exact listed
  | artist value => cases drawn
  | term value => cases drawn
  | source value => cases drawn
  | destination value => cases drawn
  | search => cases drawn
  | genre newGenre => cases drawn
  | size newSize => cases drawn
  | doubleClick id => cases drawn
  | clickNode id => cases drawn
  | clickLink => cases drawn
  | animationEnd => cases drawn

/-- A step keeps the map right exactly if it fits. -/
theorem shows_iff (s : Scene F) (nodup : (oldIds s.page).Nodup) (shows : Shows s)
    (happening : Happening F) :
    Shows (sceneAfter optimiseRotation scales s happening) ↔
      Fits optimiseRotation scales s happening := by
  cases happening with
  | groupRemoved index => exact iff_of_true (right_removeGroup shows index) trivial
  | lineRemoved index => exact iff_of_true (right_removeLine shows index) trivial
  | event event =>
      have same : graphOf (after optimiseRotation s.page event) =
          ((drawnBy optimiseRotation scales s.page event).map Prod.snd).getD (graphOf s.page) :=
        graphOf_after s.page event
      rw [sceneAfter, Fits]
      cases drawn : drawnBy optimiseRotation scales s.page event with
      | none =>
          rw [drawn] at same
          refine iff_of_true ?_ fun _ _ none => nomatch none
          rw [Shows, same]
          exact shows
      | some result =>
          obtain ⟨scale, graph⟩ := result
          rw [drawn] at same
          rw [Shows, same]
          refine (drawGraph_right_iff nodup).trans ?_
          constructor
          · intro start scale' graph' equal
            obtain ⟨rfl, rfl⟩ := Prod.mk.inj (Option.some.inj equal)
            exact start
          · exact fun fits => fits scale graph rfl

def StepShows (optimiseRotation : Rotation F) (scales : Scales F) (s : Scene F)
    (happening : Happening F) : Prop :=
  Listed happening ∧ Shows (sceneAfter optimiseRotation scales s happening)

theorem nodup_sceneAfter (keeps : KeepsArtists optimiseRotation) {s : Scene F}
    (nodup : (oldIds s.page).Nodup) {happening : Happening F} (listed : Listed happening) :
    (oldIds (sceneAfter optimiseRotation scales s happening).page).Nodup := by
  cases happening with
  | groupRemoved index => exact nodup
  | lineRemoved index => exact nodup
  | event event =>
      have same : graphOf (after optimiseRotation s.page event) =
          ((drawnBy optimiseRotation scales s.page event).map Prod.snd).getD (graphOf s.page) :=
        graphOf_after s.page event
      rw [sceneAfter]
      cases drawn : drawnBy optimiseRotation scales s.page event with
      | none =>
          rw [drawn] at same
          simp only [oldIds, same]
          exact nodup
      | some result =>
          rw [drawn] at same
          simp only [oldIds, same]
          exact nodup_drawnBy keeps listed drawn

theorem fits_of_quiet {s : Scene F} (nodup : (oldIds s.page).Nodup) (shows : Shows s)
    {happening : Happening F} (quiet : Quiet optimiseRotation scales s happening) :
    Fits optimiseRotation scales s happening := by
  cases happening with
  | groupRemoved index => trivial
  | lineRemoved index => trivial
  | event event =>
      intro scale graph drawn
      have gone : leftOver (oldIds s.page) s.canvas = [] :=
        leftOver_of_quiet shows nodup (quiet (by rw [drawn]; rfl))
      rw [gone]
      exact List.nil_prefix

/-- Along every run whose replies list each artist once, the map shows the graph that the
page is at, each group drawn for the node it is bound to, exactly if every reply finds
the groups that are left over drawn as its own first nodes; and that is so if no old
group is left when a reply comes. -/
theorem scenes_right_iff (keeps : KeepsArtists optimiseRotation) (scales : Scales F)
    (happenings : List (Happening F))
    (listed : Along (sceneAfter optimiseRotation scales) (fun _ => Listed) .initial happenings) :
    (Along (sceneAfter optimiseRotation scales)
        (fun s happening => Shows (sceneAfter optimiseRotation scales s happening)) .initial happenings ↔
      Along (sceneAfter optimiseRotation scales) (Fits optimiseRotation scales) .initial happenings) ∧
    (Along (sceneAfter optimiseRotation scales) (Quiet optimiseRotation scales) .initial happenings →
      Along (sceneAfter optimiseRotation scales)
        (fun s happening => Shows (sceneAfter optimiseRotation scales s happening)) .initial happenings) := by
  have start : (oldIds (Scene.initial : Scene F).page).Nodup ∧ Shows (Scene.initial : Scene F) :=
    ⟨List.nodup_nil, rfl, rfl⟩
  have kept : ∀ (s : Scene F) happening, (oldIds s.page).Nodup ∧ Shows s →
      StepShows optimiseRotation scales s happening →
      (oldIds (sceneAfter optimiseRotation scales s happening).page).Nodup ∧
        Shows (sceneAfter optimiseRotation scales s happening) :=
    fun s happening inv step => ⟨nodup_sceneAfter keeps inv.1 step.1, step.2⟩
  constructor
  · have steps : Along (sceneAfter optimiseRotation scales) (StepShows optimiseRotation scales)
          .initial happenings ↔
        Along (sceneAfter optimiseRotation scales)
          (fun s happening => Listed happening ∧ Fits optimiseRotation scales s happening)
          .initial happenings :=
      along_iff (fun s => (oldIds s.page).Nodup ∧ Shows s)
        (fun s happening inv => and_congr_right fun _ => shows_iff s inv.1 inv.2 happening) kept
        happenings .initial start
    unfold StepShows at steps
    rw [along_and, along_and] at steps
    exact (and_iff_right listed).symm.trans (steps.trans (and_iff_right listed))
  · intro quiet
    have both := (along_and happenings (Scene.initial : Scene F)).mpr ⟨listed, quiet⟩
    have shown : Along (sceneAfter optimiseRotation scales) (StepShows optimiseRotation scales)
        .initial happenings := by
      refine along_of (fun s => (oldIds s.page).Nodup ∧ Shows s) ?_ kept happenings _ start both
      rintro s happening ⟨nodup, shows⟩ ⟨lists, alone⟩
      exact ⟨lists, (shows_iff s nodup shows happening).mpr (fits_of_quiet nodup shows alone)⟩
    exact ((along_and happenings (Scene.initial : Scene F)).mp shown).2

end

/-! ## Two artists come and go -/

def replyOf (ids : List String) : D3Graph ℤ :=
  ⟨ids.map fun id => ⟨id, id, 1, none, (0, 0)⟩, [], none⟩

def arrival (ids : List String) : Happening ℤ := .event (.reply 0 (replyOf ids) 1160 420)

def plainScales : Scales ℤ := fun _ _ _ _ => id

theorem listed_arrival {ids : List String} (nodup : ids.Nodup) : Listed (arrival ids) := by
  have same : (replyOf ids).nodes.map Node.id = ids := by
    rw [replyOf, List.map_map]
    exact List.map_id _
  change ((replyOf ids).nodes.map Node.id).Nodup
  rw [same]
  exact nodup

/-- The old groups are gone before the next reply. -/
theorem scenes_right_in_turn : Along (sceneAfter noRotation plainScales)
    (fun s happening => Shows (sceneAfter noRotation plainScales s happening)) .initial
    [arrival ["a", "b"], .event (.artist "b"), arrival ["b", "c"], .groupRemoved 0, .groupRemoved 0,
      .event (.artist "c"), arrival ["c", "d"]] := by
  refine (scenes_right_iff (fun _ _ _ => rfl) plainScales _ ?_).2 ?_
  · exact ⟨listed_arrival (by decide), trivial, listed_arrival (by decide), trivial, trivial, trivial,
      listed_arrival (by decide), trivial⟩
  · decide +kernel

/-- While the old groups are still there, the group of `b` is bound to `c`, which is not drawn. -/
example :
    let s := List.foldl (sceneAfter noRotation plainScales) .initial
      [arrival ["a", "b"], .event (.artist "b"), arrival ["b", "c"], .event (.artist "c"), arrival ["c", "d"]]
    (nodesOf s.canvas.groups).map (fun group => (group.drawn.id, group.datum.id)) =
      [("b", "c"), ("d", "d")] := by
  decide +kernel

end Phonograph.Client.Scenes
