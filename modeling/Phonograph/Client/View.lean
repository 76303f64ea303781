import Phonograph.Client.PathEnds
import Phonograph.Lib.Runs

/-! # The view and its requests

`reload`, `start_Vis` and the handlers of `phonograph.js` that call them.  A
request keeps nothing of the state it was sent from: its reply is laid out by the
route and the source that `gv` has when it arrives, and shown whatever has been
asked for since.  `lastShown_iff` gives the deliveries for which this is right. -/

set_option autoImplicit false

namespace Phonograph.Client.View

open Phonograph.Lib Phonograph.Server.Igrapher Phonograph.Client.Js Phonograph.Client.PathLayout

inductive Route where
  | neighbourhood
  | termsubgraph
  | path
  deriving DecidableEq

def Route.text : Route → String
  | .neighbourhood => "neighbourhood"
  | .termsubgraph => "termsubgraph"
  | .path => "path"

/-- The fields of `gv` that the handlers below read; `artist` holds the keys of
`gv.artist`. -/
structure Gv where
  route : Route := .neighbourhood
  origin : Option String := none
  zoomLevel : ℕ := 1
  genre : Option String := none
  term : Option String := none
  source : Option String := none
  destination : Option String := none
  core : Option String := none
  size : ℕ := 20
  clickable : Bool := true
  currentArtist : Option String := none
  artist : List String := []
  deriving DecidableEq

def orNull (value : Option String) : String := value.getD "null"

def flaskURL (gv : Gv) : String :=
  "/" ++ gv.route.text ++ "?origin=" ++ orNull gv.origin ++ "&size=" ++ toString gv.size ++
    "&genre=" ++ orNull gv.genre ++ "&level=" ++ toString gv.zoomLevel ++
    "&source=" ++ orNull gv.source ++ "&destination=" ++ orNull gv.destination ++
    "&core=" ++ orNull gv.core ++ "&term=" ++ orNull gv.term

/-- A request: its number, its address, and the `gv` that the address was made of. -/
structure Request where
  number : ℕ
  url : String
  asked : Gv
  deriving DecidableEq

inductive Layout where
  | rotation
  | path
  deriving DecidableEq

def Route.layout : Route → Layout
  | .path => .path
  | _ => .rotation

structure Shown (F : Type) where
  request : Request
  layout : Layout
  graph : D3Graph F
  deriving DecidableEq

/-- `newGraph` is `gv.newGraph` and `gv.oldGraph`, which are one object between two
replies; `timers` counts the animations that have not ended. -/
structure Page (F : Type) where
  gv : Gv
  inFlight : List Request
  issued : ℕ
  newGraph : Option (Shown F)
  timers : ℕ

section
variable {F : Type}

def reload (v : Page F) : Page F :=
  { v with
    gv := { v.gv with clickable := false }
    inFlight := v.inFlight ++ [⟨v.issued + 1, flaskURL v.gv, v.gv⟩]
    issued := v.issued + 1 }

def Page.initial : Page F := reload ⟨{}, [], 0, none, 0⟩

/-- No request is in flight twice, or in flight and on display. -/
structure Accounted (v : Page F) : Prop where
  nodup : v.inFlight.Nodup
  numbered : ∀ request ∈ v.inFlight, request.number ≤ v.issued
  shown : ∀ shown ∈ v.newGraph, shown.request.number ≤ v.issued ∧ shown.request ∉ v.inFlight

theorem accounted_reload {v : Page F} (accounted : Accounted v) : Accounted (reload v) := by
  have fresh : (⟨v.issued + 1, flaskURL v.gv, v.gv⟩ : Request) ∉ v.inFlight := by
    intro member
    have bound : v.issued + 1 ≤ v.issued := accounted.numbered _ member
    omega
  constructor
  · rw [reload, List.nodup_append_comm, List.singleton_append, List.nodup_cons]
    exact ⟨fresh, accounted.nodup⟩
  · intro request member
    rcases List.mem_append.mp member with old | new
    · exact Nat.le_succ_of_le (accounted.numbered request old)
    · rw [List.mem_singleton.mp new]
      exact Nat.le_refl _
  · intro shown here
    obtain ⟨bound, out⟩ := accounted.shown shown here
    refine ⟨Nat.le_succ_of_le bound, fun member => ?_⟩
    rcases List.mem_append.mp member with old | new
    · exact out old
    · have number : shown.request.number = v.issued + 1 := by rw [List.mem_singleton.mp new]
      omega

/-! ## Events -/

inductive Event (F : Type) where
  | artist (value : String)
  | term (value : String)
  | source (value : String)
  | destination (value : String)
  | search
  | genre (newGenre : String)
  | size (newSize : ℕ)
  | doubleClick (id : String)
  | clickNode (id : String)
  | clickLink
  /-- The timer of `start_Vis`. -/
  | animationEnd
  /-- A reply arrives, while the map has the given size. -/
  | reply (index : ℕ) (graph : D3Graph F) (width height : F)

def delivered (v : Page F) : Event F → Option (Request × D3Graph F)
  | .reply index graph _ _ => (v.inFlight[index]?).map fun request => (request, graph)
  | _ => none

theorem forall_delivered_none {v : Page F} {event : Event F} {prop : Request → D3Graph F → Prop}
    (none : delivered v event = none) :
    ∀ request graph, delivered v event = some (request, graph) → prop request graph := by
  intro request graph some
  rw [none] at some
  cases some

theorem forall_delivered_some {v : Page F} {event : Event F} {prop : Request → D3Graph F → Prop}
    {request : Request} {graph : D3Graph F} (some : delivered v event = some (request, graph)) :
    (∀ request graph, delivered v event = .some (request, graph) → prop request graph) ↔
      prop request graph := by
  constructor
  · intro each
    exact each request graph some
  · intro holds request' graph' some'
    obtain ⟨rfl, rfl⟩ := Prod.mk.inj (Option.some.inj (some.symm.trans some'))
    exact holds

def Answers (asked : Gv) (graph : D3Graph F) : Prop :=
  asked.route = .path → ∃ source destination, asked.source = some source ∧
    asked.destination = some destination ∧ PathGraph graph source destination

/-- The route is of the same kind as the one asked for and, on a path, the source is
one of its ends. -/
def Fits (gv asked : Gv) : Prop :=
  (gv.route = .path ↔ asked.route = .path) ∧
    (asked.route = .path → gv.source = asked.source ∨ gv.source = asked.destination)

instance (gv asked : Gv) : Decidable (Fits gv asked) := inferInstanceAs (Decidable (_ ∧ (_ → _)))

def Answered (v : Page F) (event : Event F) : Prop :=
  ∀ request graph, delivered v event = some (request, graph) → Answers request.asked graph

/-- The reply meets the view that it was asked for under; and if it is the last in
flight, no request came after its own. -/
def Meets (v : Page F) (event : Event F) : Prop :=
  ∀ request graph, delivered v event = some (request, graph) →
    Fits v.gv request.asked ∧ (v.inFlight.length = 1 → request.number = v.issued)

open Phonograph.Server.Redis Phonograph.Server.Python Phonograph.Server.Database
  Phonograph.Server.Routes Phonograph.Server.Links in
/-- What the server sends is such a reply: for two artists, after any requests and in
any order of the links. -/
theorem answers_served {S : Type} [Score S] (P : Platform F) (db : MusicDb S)
    (shared : NeighboursShare db)
    (info : ∀ artist, ∀ track ∈ (db.tracks artist).members, HasInfo db track)
    (history : List Job) (job : Job) (route : job.request.route = .path) (asked : Gv)
    {source destination : String} (ofSource : asked.source = some source)
    (ofDestination : asked.destination = some destination) (ne : source ≠ destination)
    (sourceArg : job.request.args "source" = asked.source)
    (destinationArg : job.request.args "destination" = asked.destination) {reply : D3Graph F}
    (sent : alone P job (served P history db.store) = .ok (.graph reply)) {links : List Edge}
    (rearranged : Rearranged reply.links links) : Answers asked { reply with links := links } :=
  fun _ => ⟨source, destination, ofSource, ofDestination,
    pathGraph_served P db shared info history job route (sourceArg.trans ofSource)
      (destinationArg.trans ofDestination) ne sent rearranged⟩

theorem layout_eq_path {route : Route} : route.layout = .path ↔ route = .path := by
  cases route <;> simp [Route.layout]

/-! ## Replies -/

variable [NatCast F] [Add F] [Sub F] [Mul F] [Div F] [LE F] [DecidableLE F] [LT F] [DecidableLT F]

/-- `optimiseRotation`, which searches for an angle in floating point: the graph is
turned so that the nodes that stay move little. -/
abbrev Rotation (F : Type) := (oldPos newPos : List (F × F)) → D3Graph F → D3Graph F

variable (optimiseRotation : Rotation F)

def layOut (route : Route) (source : Option String) (old : Option (D3Graph F)) (graph : D3Graph F)
    (width height : F) : Except JsErr (Layout × D3Graph F) :=
  let newIds := graph.nodes.map Node.id
  let toStay := (old.elim [] D3Graph.nodes).filter (·.id ∈ newIds)
  let oldPos := toStay.map Node.pos
  let newPos := toStay.filterMap fun n => (graph.nodes[newIds.idxOf n.id]?).map Node.pos
  if route = .path then
    (pathPositions graph newIds source width height).map fun result => (.path, result.2)
  else .ok (.rotation, optimiseRotation oldPos newPos graph)

def startVis (v : Page F) (request : Request) (graph : D3Graph F) (width height : F) : Page F :=
  let v := { v with gv := { v.gv with artist := graph.nodes.map Node.id } }
  let old := v.newGraph.map Shown.graph
  match layOut optimiseRotation v.gv.route v.gv.source old graph width height with
  | .ok (layout, graph) =>
      { v with newGraph := some ⟨request, layout, graph⟩, timers := v.timers + 1 }
  | .error _ => v

def callback (v : Page F) (request : Request) (graph : D3Graph F) (width height : F) : Page F :=
  let gv := match graph.origin.filter (· ≠ "") with
    | some origin => { v.gv with origin := some origin, currentArtist := some origin }
    | none => { v.gv with origin := none }
  startVis optimiseRotation { v with gv := gv } request graph width height

/-! ## Handlers -/

/-- `gv.artist[gv.currentArtist]` is there for `loadArtistInfo` to read. -/
def Gv.knowsArtist (gv : Gv) : Prop := orNull gv.currentArtist ∈ gv.artist

instance (gv : Gv) : Decidable gv.knowsArtist := inferInstanceAs (Decidable (_ ∈ _))

def after (v : Page F) : Event F → Page F
  | .artist value =>
      reload { v with gv := { v.gv with
        origin := some value, route := .neighbourhood, genre := none } }
  | .term value =>
      reload { v with gv := { v.gv with
        term := some value, route := .termsubgraph, origin := none, genre := none } }
  | .source value => { v with gv := { v.gv with source := some value } }
  | .destination value =>
      { v with gv := { v.gv with destination := some value, route := .path, genre := none } }
  | .search => reload v
  | .genre newGenre =>
      if v.gv.genre ≠ some newGenre then
        reload { v with gv := { v.gv with
          genre := some newGenre, route := .neighbourhood, origin := none } }
      else v
  | .size newSize =>
      if v.gv.size ≠ newSize ∧ v.gv.clickable then
        reload { v with gv := { v.gv with size := newSize } }
      else v
  | .doubleClick id =>
      if some id ≠ v.gv.origin ∧ v.gv.clickable then
        reload { v with gv := { v.gv with origin := some id, route := .neighbourhood } }
      else v
  | .clickNode id =>
      if v.gv.clickable then { v with gv := { v.gv with currentArtist := some id } } else v
  | .clickLink =>
      if v.gv.clickable then { v with gv := { v.gv with currentArtist := none } } else v
  | .animationEnd =>
      if v.timers = 0 then v
      else
        -- An error in `loadArtistInfo` leaves the page locked.
        let opens := v.gv.route = .neighbourhood → v.gv.knowsArtist
        { v with timers := v.timers - 1, gv := { v.gv with clickable := v.gv.clickable || opens } }
  | .reply index graph width height =>
      match v.inFlight[index]? with
      | none => v
      | some request =>
          callback optimiseRotation { v with inFlight := v.inFlight.eraseIdx index } request graph
            width height

/-! ## One event -/

variable {optimiseRotation} {v : Page F}

def Delivery (optimiseRotation : Rotation F) (v : Page F) (request : Request) (graph : D3Graph F)
    (next : Page F) : Prop :=
  ∃ index width height gv timers, v.inFlight[index]? = some request ∧
    next = {
      gv := gv
      inFlight := v.inFlight.eraseIdx index
      issued := v.issued
      newGraph :=
        match layOut optimiseRotation v.gv.route v.gv.source (v.newGraph.map Shown.graph) graph
          width height with
        | .ok (layout, graph) => some ⟨request, layout, graph⟩
        | .error _ => v.newGraph
      timers := timers }

theorem delivery_callback {index : ℕ} {request : Request} (graph : D3Graph F) (width height : F)
    (found : v.inFlight[index]? = some request) :
    Delivery optimiseRotation v request graph
      (callback optimiseRotation { v with inFlight := v.inFlight.eraseIdx index } request graph
        width height) := by
  -- The origin is set before the layout, which reads the route and the source only.
  have shown : ∀ gv : Gv, gv.route = v.gv.route → gv.source = v.gv.source →
      Delivery optimiseRotation v request graph (startVis optimiseRotation
        { v with inFlight := v.inFlight.eraseIdx index, gv := gv } request graph width height) := by
    intro gv route source
    refine ⟨index, width, height, ?_⟩
    simp only [startVis, route, source]
    cases layOut optimiseRotation v.gv.route v.gv.source (v.newGraph.map Shown.graph) graph
      width height with
    | ok laid => exact ⟨_, _, found, rfl⟩
    | error e => exact ⟨_, _, found, rfl⟩
  rw [callback]
  split
  · exact shown _ rfl rfl
  · exact shown _ rfl rfl

/-- An event changes `gv` only, sends a request, or delivers a reply. -/
theorem after_cases (optimiseRotation : Rotation F) (v : Page F) (event : Event F) :
    (delivered v event = none ∧ ∃ gv timers,
      after optimiseRotation v event = { v with gv := gv, timers := timers }) ∨
    (delivered v event = none ∧ ∃ gv,
      after optimiseRotation v event = reload { v with gv := gv }) ∨
    ∃ request graph, delivered v event = some (request, graph) ∧
      Delivery optimiseRotation v request graph (after optimiseRotation v event) := by
  have still : ∃ gv timers, v = { v with gv := gv, timers := timers } := ⟨v.gv, v.timers, rfl⟩
  cases event with
  | artist value => exact Or.inr (Or.inl ⟨rfl, _, rfl⟩)
  | term value => exact Or.inr (Or.inl ⟨rfl, _, rfl⟩)
  | source value => exact Or.inl ⟨rfl, _, _, rfl⟩
  | destination value => exact Or.inl ⟨rfl, _, _, rfl⟩
  | search => exact Or.inr (Or.inl ⟨rfl, v.gv, rfl⟩)
  | genre newGenre =>
      rw [after]
      split_ifs
      · exact Or.inr (Or.inl ⟨rfl, _, rfl⟩)
      · exact Or.inl ⟨rfl, still⟩
  | size newSize =>
      rw [after]
      split_ifs
      · exact Or.inr (Or.inl ⟨rfl, _, rfl⟩)
      · exact Or.inl ⟨rfl, still⟩
  | doubleClick id =>
      rw [after]
      split_ifs
      · exact Or.inr (Or.inl ⟨rfl, _, rfl⟩)
      · exact Or.inl ⟨rfl, still⟩
  | clickNode id =>
      rw [after]
      split_ifs
      · exact Or.inl ⟨rfl, _, _, rfl⟩
      · exact Or.inl ⟨rfl, still⟩
  | clickLink =>
      rw [after]
      split_ifs
      · exact Or.inl ⟨rfl, _, _, rfl⟩
      · exact Or.inl ⟨rfl, still⟩
  | animationEnd =>
      rw [after]
      split_ifs
      · exact Or.inl ⟨rfl, still⟩
      · exact Or.inl ⟨rfl, _, _, rfl⟩
  | reply index graph width height =>
      cases found : v.inFlight[index]? with
      | none =>
          simp only [after, delivered, found]
          exact Or.inl ⟨rfl, still⟩
      | some request =>
          simp only [after, delivered, found]
          exact Or.inr (Or.inr ⟨request, graph, rfl, delivery_callback graph width height found⟩)

/-! ## What is shown -/

theorem accounted_delivery {request : Request} {graph : D3Graph F} {next : Page F}
    (accounted : Accounted v) (delivery : Delivery optimiseRotation v request graph next) :
    Accounted next := by
  obtain ⟨index, width, height, gv, timers, found, rfl⟩ := delivery
  refine ⟨accounted.nodup.eraseIdx index,
    fun other member => accounted.numbered other (List.mem_of_mem_eraseIdx member), ?_⟩
  intro shown here
  cases laid : layOut optimiseRotation v.gv.route v.gv.source (v.newGraph.map Shown.graph) graph
    width height with
  | ok result =>
      simp only [laid, Option.mem_some_iff] at here
      subst here
      refine ⟨accounted.numbered request (List.mem_of_getElem? found), fun again => ?_⟩
      obtain ⟨other, ne, there⟩ := List.mem_eraseIdx_iff_getElem?.mp again
      have bound := (List.getElem?_eq_some_iff.mp found).1
      exact ne ((List.getElem?_inj bound accounted.nodup).mp (found.trans there.symm)).symm
  | error e =>
      simp only [laid] at here
      obtain ⟨bound, out⟩ := accounted.shown shown here
      exact ⟨bound, fun again => out (List.mem_of_mem_eraseIdx again)⟩

theorem accounted_after (accounted : Accounted v) (event : Event F) :
    Accounted (after optimiseRotation v event) := by
  obtain ⟨_, gv, timers, same⟩ | ⟨_, gv, same⟩ | ⟨request, graph, _, delivery⟩ :=
    after_cases optimiseRotation v event
  · rw [same]
    exact ⟨accounted.nodup, accounted.numbered, accounted.shown⟩
  · rw [same]
    exact accounted_reload ⟨accounted.nodup, accounted.numbered, accounted.shown⟩
  · exact accounted_delivery accounted delivery

/-- Once nothing is in flight, the last request is on display. -/
def LastShown (v : Page F) : Prop :=
  v.inFlight = [] → v.newGraph.map (·.request.number) = some v.issued

def Displayed (optimiseRotation : Rotation F) (v : Page F) (event : Event F) : Prop :=
  ∀ request graph, delivered v event = some (request, graph) →
    (after optimiseRotation v event).newGraph.map (fun shown => (shown.request, shown.layout)) =
      some (request, request.asked.route.layout)

theorem layOut_ok_iff (optimiseRotation : Rotation F) {gv asked : Gv} (old : Option (D3Graph F))
    {graph : D3Graph F} (width height : F) (answers : Answers asked graph) :
    (∃ laid, layOut optimiseRotation gv.route gv.source old graph width height =
      .ok (asked.route.layout, laid)) ↔ Fits gv asked := by
  by_cases now : gv.route = .path
  · rw [layOut, if_pos now]
    cases laid : pathPositions graph (graph.nodes.map Node.id) gv.source width height with
    | ok result =>
        by_cases before : asked.route = .path
        · obtain ⟨s, t, ofSource, ofDestination, path⟩ := answers before
          have ends := (pathPositions_ok_iff path gv.source width height).mp ⟨result, laid⟩
          rw [Fits, ofSource, ofDestination]
          exact iff_of_true ⟨result.2, by rw [layout_eq_path.mpr before]; rfl⟩
            ⟨iff_of_true now before, fun _ => ends⟩
        · refine iff_of_false ?_ fun meets => before (meets.1.mp now)
          rintro ⟨_, same⟩
          exact before (layout_eq_path.mp (congrArg Prod.fst (Except.ok.inj same)).symm)
    | error e =>
        refine iff_of_false (fun ⟨_, same⟩ => by cases same) ?_
        rintro ⟨same, ends⟩
        obtain ⟨s, t, ofSource, ofDestination, path⟩ := answers (same.mp now)
        have reached := ends (same.mp now)
        rw [ofSource, ofDestination] at reached
        obtain ⟨result, ok⟩ := (pathPositions_ok_iff path gv.source width height).mpr reached
        rw [laid] at ok
        cases ok
  · rw [layOut, if_neg now]
    by_cases before : asked.route = .path
    · refine iff_of_false ?_ fun meets => now (meets.1.mpr before)
      rintro ⟨_, same⟩
      have picked := congrArg Prod.fst (Except.ok.inj same)
      rw [layout_eq_path.mpr before] at picked
      cases picked
    · have rotated : asked.route.layout = .rotation := by
        cases route' : asked.route with
        | path => exact absurd route' before
        | _ => rfl
      rw [rotated]
      exact iff_of_true ⟨_, rfl⟩ ⟨iff_of_false now before, fun path => absurd path before⟩

theorem displayed_delivery {request : Request} {graph : D3Graph F} {next : Page F}
    (accounted : Accounted v) (delivery : Delivery optimiseRotation v request graph next)
    (answers : Answers request.asked graph) :
    next.newGraph.map (fun shown => (shown.request, shown.layout)) =
      some (request, request.asked.route.layout) ↔ Fits v.gv request.asked := by
  obtain ⟨index, width, height, gv, timers, found, rfl⟩ := delivery
  rw [← layOut_ok_iff optimiseRotation (v.newGraph.map Shown.graph) width height answers]
  cases laid : layOut optimiseRotation v.gv.route v.gv.source (v.newGraph.map Shown.graph) graph
    width height with
  | ok result => simp [Prod.ext_iff]
  | error e =>
      -- What is on display is not the reply, which was in flight.
      refine iff_of_false (fun same => ?_) fun ⟨_, ok⟩ => by cases ok
      obtain ⟨shown, here, tagged⟩ := Option.map_eq_some_iff.mp same
      have again : shown.request = request := congrArg Prod.fst tagged
      exact (accounted.shown shown here).2 (again ▸ List.mem_of_getElem? found)

theorem lastShown_delivery {request : Request} {graph : D3Graph F} {next : Page F} {layout : Layout}
    (delivery : Delivery optimiseRotation v request graph next)
    (shown : next.newGraph.map (fun shown => (shown.request, shown.layout)) = some (request, layout)) :
    LastShown next ↔ (v.inFlight.length = 1 → request.number = v.issued) := by
  have number : next.newGraph.map (·.request.number) = some request.number := by
    have first := congrArg (Option.map fun tagged => tagged.1.number) shown
    rw [Option.map_map] at first
    exact first
  obtain ⟨index, width, height, gv, timers, found, same⟩ := delivery
  have bound := (List.getElem?_eq_some_iff.mp found).1
  have quiet : next.inFlight = [] ↔ v.inFlight.length = 1 := by
    rw [same, ← List.length_eq_zero_iff, List.length_eraseIdx, if_pos bound]
    omega
  have issued : next.issued = v.issued := by rw [same]
  rw [LastShown, number, quiet, issued, Option.some.injEq]

def StepRight (optimiseRotation : Rotation F) (v : Page F) (event : Event F) : Prop :=
  Displayed optimiseRotation v event ∧ LastShown (after optimiseRotation v event)

theorem stepRight_iff (accounted : Accounted v) (last : LastShown v) {event : Event F}
    (answered : Answered v event) : StepRight optimiseRotation v event ↔ Meets v event := by
  obtain ⟨none, gv, timers, same⟩ | ⟨none, gv, same⟩ | ⟨request, graph, some, delivery⟩ :=
    after_cases optimiseRotation v event
  · refine iff_of_true ⟨forall_delivered_none none, ?_⟩ (forall_delivered_none none)
    rw [same]
    exact last
  · refine iff_of_true ⟨forall_delivered_none none, ?_⟩ (forall_delivered_none none)
    rw [same]
    intro quiet
    simp [reload] at quiet
  · have answers := answered request graph some
    have displayed := displayed_delivery accounted delivery answers
    rw [StepRight, Displayed, Meets, forall_delivered_some some, forall_delivered_some some]
    constructor
    · rintro ⟨right, final⟩
      exact ⟨displayed.mp right, (lastShown_delivery delivery right).mp final⟩
    · rintro ⟨fits, latest⟩
      have right := displayed.mpr fits
      exact ⟨right, (lastShown_delivery delivery right).mpr latest⟩

/-- Along every run whose replies to `/path` are paths, every reply is shown in the
layout of its route and the last request is shown once nothing is in flight,
exactly if every reply meets the view it was asked for under and the last one in
flight is that of the last request. -/
theorem lastShown_iff (optimiseRotation : Rotation F) (events : List (Event F))
    (answered : Along (after optimiseRotation) Answered .initial events) :
    (LastShown (Page.initial : Page F) ∧
        Along (after optimiseRotation) (StepRight optimiseRotation) .initial events) ↔
      Along (after optimiseRotation) Meets .initial events := by
  have start : Accounted (Page.initial : Page F) ∧ LastShown (Page.initial : Page F) :=
    ⟨accounted_reload ⟨List.nodup_nil, by simp, by simp⟩, by simp [LastShown, Page.initial, reload]⟩
  have steps :
      Along (after optimiseRotation)
          (fun v event => Answered v event ∧ StepRight optimiseRotation v event) .initial events ↔
        Along (after optimiseRotation)
          (fun v event => Answered v event ∧ Meets v event) .initial events := along_iff
    (fun v => Accounted v ∧ LastShown v)
    (fun v event inv => and_congr_right fun answered => stepRight_iff inv.1 inv.2 answered)
    (fun v event inv right => ⟨accounted_after inv.1 event, right.2.2⟩) events .initial start
  rw [along_and, along_and] at steps
  rw [and_iff_right start.2]
  exact (and_iff_right answered).symm.trans (steps.trans (and_iff_right answered))

end

def noRotation : Rotation ℤ := fun _ _ graph => graph

def loneReply (id : String) : D3Graph ℤ := ⟨[⟨id, id, 1, none, (0, 0)⟩], [], some id⟩

theorem pathGraph_row : PathGraph rowReply "a" "c" where
  nodup := by decide
  first := rfl
  last := rfl
  row := ⟨by decide, by decide, by decide⟩

/-- The first view, and then a path that is searched for and arrives undisturbed. -/
theorem lastShown_search : Along (after noRotation) (StepRight noRotation) .initial
    [.reply 0 (loneReply "b") 1160 420, .source "a", .destination "c", .search,
      .reply 0 rowReply 1160 420] := by
  refine ((lastShown_iff noRotation _ ?_).mpr ?_).2
  · refine ⟨(forall_delivered_some rfl).mpr ?_, forall_delivered_none rfl, forall_delivered_none rfl,
      forall_delivered_none rfl, (forall_delivered_some rfl).mpr ?_, trivial⟩
    · intro path
      cases path
    · exact fun _ => ⟨"a", "c", rfl, rfl, pathGraph_row⟩
  · refine ⟨(forall_delivered_some rfl).mpr ?_, forall_delivered_none rfl, forall_delivered_none rfl,
      forall_delivered_none rfl, (forall_delivered_some rfl).mpr ?_, trivial⟩
    · decide
    · decide

/-- The reply to the first request arrives after that for an artist chosen since. -/
theorem not_lastShown :
    Along (after noRotation) Answered .initial
        [.artist "x", .reply 1 (loneReply "x") 1160 420, .reply 0 (loneReply "b") 1160 420] ∧
      ¬ LastShown (List.foldl (after noRotation) .initial
        [.artist "x", .reply 1 (loneReply "x") 1160 420, .reply 0 (loneReply "b") 1160 420]) := by
  constructor
  · refine ⟨forall_delivered_none rfl, (forall_delivered_some rfl).mpr ?_,
      (forall_delivered_some rfl).mpr ?_, trivial⟩
    · intro path
      cases path
    · intro path
      cases path
  · intro last
    exact absurd (last rfl) (by decide)

end Phonograph.Client.View
