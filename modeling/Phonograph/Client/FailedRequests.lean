import Mathlib
import Phonograph.Client.ClickLock
import Phonograph.Server.Engines

/-! # Replies without a graph

The callback of `reload` looks for an origin before it looks for an error.  A reply
`{"error": ...}` has no origin, so it clears `gv.origin` and then unlocks the page;
on a failed request there is nothing to look at, and the callback stops with the page
locked.  `intact_iff` says when the view survives. -/

set_option autoImplicit false

namespace Phonograph.Client.FailedRequests

open Phonograph.Lib Phonograph.Server.Igrapher Phonograph.Client.Js Phonograph.Client.PathLayout
open Phonograph.Client.View

/-- The page with all that `reload` and `start_Vis` write.  `page.newGraph` is
`gv.newGraph`; the ids are undefined until the first graph is there. -/
structure Screen (F : Type) where
  page : Page F
  clickedNode : Option String
  currentIds : Option (List String)
  oldGraph : Option (Shown F)

inductive Reply (F : Type) where
  | graph (graph : D3Graph F)
  | error (message : String)
  /-- An HTTP failure: `d3.json` gives the callback no graph. -/
  | failed

section
variable {F : Type}

/-- `graph.origin`, if it is true in a test. -/
def Reply.origin : Reply F → Option String
  | .graph g => g.origin.filter (· ≠ "")
  | _ => none

def Screen.gv (s : Screen F) : Gv := s.page.gv

def Screen.withGv (s : Screen F) (gv : Gv) : Screen F := { s with page := { s.page with gv := gv } }

def reload (s : Screen F) : Screen F := { s with page := View.reload s.page }

variable [NatCast F] [Add F] [Sub F] [Mul F] [Div F] [LE F] [DecidableLE F] [LT F] [DecidableLT F]
variable (optimiseRotation : Rotation F)

def startVis (s : Screen F) (request : Request) (graph : D3Graph F) (width height : F) :
    Screen F × Option JsErr :=
  let ids := graph.nodes.map Node.id
  let s := { s.withGv { s.gv with artist := ids } with currentIds := some ids }
  match layOut optimiseRotation s.gv.route s.gv.source (s.oldGraph.map Shown.graph) graph
    width height with
  | .ok (layout, graph) =>
      let shown : Shown F := ⟨request, layout, graph⟩
      ({ s with
          page := { s.page with newGraph := some shown, timers := s.page.timers + 1 }
          oldGraph := some shown }, none)
  | .error error => (s, some error)

def callback (s : Screen F) (request : Request) (reply : Reply F) (width height : F) :
    Screen F × Option JsErr :=
  let named := match reply.origin with
    | some origin =>
        { s.withGv { s.gv with origin := some origin, currentArtist := some origin } with
          clickedNode := some origin }
    | none => s.withGv { s.gv with origin := none }
  match reply with
  -- There is no `graph` to read the origin of.
  | .failed => (s, some .typeError)
  | .graph graph => startVis optimiseRotation named request graph width height
  | .error message =>
      if message = "" then (named, some .typeError)
      else (named.withGv { named.gv with clickable := true }, none)

def answered (s : Screen F) (reply : Reply F) (width height : F) : Screen F :=
  let sent := reload s
  let request : Request := ⟨s.page.issued + 1, flaskURL s.gv, s.gv⟩
  let arrived := { sent with page := { sent.page with inFlight := s.page.inFlight } }
  (callback optimiseRotation arrived request reply width height).1

/-- The page can be clicked again and shows what it showed. -/
structure Intact (before after : Screen F) : Prop where
  clickable : after.gv.clickable = true
  origin : after.gv.origin = before.gv.origin
  currentArtist : after.gv.currentArtist = before.gv.currentArtist
  clickedNode : after.clickedNode = before.clickedNode
  currentIds : after.currentIds = before.currentIds
  newGraph : after.page.newGraph = before.page.newGraph
  oldGraph : after.oldGraph = before.oldGraph

/-- The outcomes of a request that bring no graph. -/
inductive Unsuccessful where
  /-- The body `{"error": "No path found."}`. -/
  | noPath
  | failed
  deriving DecidableEq

def Unsuccessful.reply : Unsuccessful → Reply F
  | .noPath => .error "No path found."
  | .failed => .failed

theorem answered_noPath (s : Screen F) (width height : F) :
    answered optimiseRotation s Unsuccessful.noPath.reply width height =
      { s with page := { s.page with
          issued := s.page.issued + 1
          gv := { s.gv with origin := none, clickable := true } } } := by
  have message : "No path found." ≠ "" := by decide
  simp only [answered, callback, Unsuccessful.reply, Reply.origin, message, if_false]
  rfl

theorem answered_failed (s : Screen F) (width height : F) :
    answered optimiseRotation s Unsuccessful.failed.reply width height =
      { s with page := { s.page with
          issued := s.page.issued + 1
          gv := { s.gv with clickable := false } } } := rfl

/-- In every client state and for every unsuccessful outcome: the view is intact exactly
if the outcome is a reply without a path and there was no origin to lose. -/
theorem intact_iff (s : Screen F) (outcome : Unsuccessful) (width height : F) :
    Intact s (answered optimiseRotation s outcome.reply width height) ↔
      outcome = .noPath ∧ s.gv.origin = none := by
  cases outcome with
  | noPath =>
      rw [answered_noPath]
      constructor
      · intro intact
        exact ⟨rfl, intact.origin.symm⟩
      · rintro ⟨_, none⟩
        exact ⟨rfl, none.symm, rfl, rfl, rfl, rfl, rfl⟩
  | failed =>
      rw [answered_failed]
      constructor
      · intro intact
        cases intact.clickable
      · rintro ⟨same, _⟩
        cases same

def searching (origin source destination : String) : Screen ℤ :=
  let graph : Shown ℤ := ⟨⟨1, flaskURL {}, {}⟩, .rotation, loneReply origin⟩
  { page :=
      { gv := { route := .path, origin := some origin, source := some source,
                destination := some destination, currentArtist := some origin, artist := [origin] }
        inFlight := []
        issued := 1
        newGraph := some graph
        timers := 0 }
    clickedNode := some origin
    currentIds := some [origin]
    oldGraph := some graph }

/-- No path from a to c: the view of b loses its origin. -/
theorem not_intact :
    ¬ Intact (searching "b" "a" "c")
      (answered noRotation (searching "b" "a" "c") Unsuccessful.noPath.reply 1160 420) := by
  intro intact
  have lost := intact.origin
  rw [answered_noPath] at lost
  cases lost

/-- The page part of the callback is that of the click lock's signals. -/
theorem page_answered (s : Screen F) (outcome : Unsuccessful) (width height : F) :
    (answered optimiseRotation s outcome.reply width height).page =
      ClickLock.heard optimiseRotation (View.reload s.page)
        (match outcome with
          | .noPath => .noPath s.page.inFlight.length
          | .failed => .failure s.page.inFlight.length) := by
  have last : (View.reload s.page).inFlight.eraseIdx s.page.inFlight.length = s.page.inFlight := by
    rw [View.reload, List.eraseIdx_append_of_length_le le_rfl, Nat.sub_self,
      List.eraseIdx_cons_zero, List.append_nil]
  have found : (View.reload s.page).inFlight[s.page.inFlight.length]? =
      some ⟨s.page.issued + 1, flaskURL s.page.gv, s.page.gv⟩ := by
    rw [View.reload, List.getElem?_append_right le_rfl, Nat.sub_self]
    rfl
  cases outcome with
  | noPath =>
      simp only [answered_noPath, ClickLock.heard, found, last]
      rfl
  | failed =>
      simp only [answered_failed, ClickLock.heard, last]
      rfl

theorem page_startVis (s : Screen F) (one : s.oldGraph = s.page.newGraph) (request : Request)
    (graph : D3Graph F) (width height : F) :
    (startVis optimiseRotation s request graph width height).1.page =
      View.startVis optimiseRotation s.page request graph width height := by
  simp only [startVis, View.startVis, Screen.withGv, Screen.gv, one]
  cases layOut optimiseRotation s.page.gv.route s.page.gv.source
    (s.page.newGraph.map Shown.graph) graph width height with
  | ok laid => rfl
  | error e => rfl

/-- On a graph it is the callback of the view, while `gv.oldGraph` is `gv.newGraph`. -/
theorem page_callback_graph (s : Screen F) (one : s.oldGraph = s.page.newGraph) (request : Request)
    (graph : D3Graph F) (width height : F) :
    (callback optimiseRotation s request (.graph graph) width height).1.page =
      View.callback optimiseRotation s.page request graph width height := by
  unfold callback View.callback
  dsimp only [Reply.origin]
  rw [page_startVis]
  · cases graph.origin.filter (· ≠ "") with
    | none => rfl
    | some origin => rfl
  · cases graph.origin.filter (· ≠ "") with
    | none => exact one
    | some origin => exact one

end

/-! ## What the server sends -/

section Server
open Phonograph.Server.Redis Phonograph.Server.Python Phonograph.Server.Database
open Phonograph.Server.Paths Phonograph.Server.Routes Phonograph.Server.Engines

variable {F S : Type} [Score S] (P : Platform F)

/-- An error in a handler is an HTTP failure, and so is a body that is no graph. -/
def Reply.ofServer : Except PyErr (Response F) → Reply F
  | .ok (.graph g) => .graph g
  | .ok (.error message) => .error message
  | _ => .failed

def graphRoutes : List Phonograph.Server.Routes.Route :=
  [.path, .neighbourhood, .zoom, .custom, .termsubgraph]

def OneMessage (response : Response F) : Prop :=
  (∃ g, response = .graph g) ∨ response = .error "No path found."

theorem oneMessage_sendGraph (g : Graph) (origin : Option String) :
    Script.Ensures (E := PyErr) OneMessage
      (do return Response.graph (← d3Dictify P g origin) : Handler (Response F)) :=
  (Script.ensures_true _).bind fun reply _ => Or.inl ⟨reply, rfl⟩

theorem oneMessage_serve (fuel : ℕ) (request : Phonograph.Server.Routes.Request)
    (asked : request.route ∈ graphRoutes) : (serve P fuel request).Ensures OneMessage := by
  have any : ∀ {α : Type} {handler : Handler α} {rest : α → Handler (Response F)},
      (∀ value, (rest value).Ensures OneMessage) → (handler >>= rest).Ensures OneMessage :=
    fun each => (Script.ensures_true _).bind fun value _ => each value
  have send : ∀ (vertices : List String) (origin : Option String),
      (do
        let g ← igrapher P vertices
        return Response.graph (← d3Dictify P g origin) : Handler (Response F)).Ensures OneMessage :=
    fun vertices origin => any fun g => oneMessage_sendGraph P g origin
  rw [serve]
  cases route : request.route with
  | path =>
      refine any fun i => any fun j => any fun paths => ?_
      split_ifs
      · exact any fun again => any fun path => send path none
      · exact Or.inr rfl
  | neighbourhood =>
      exact any fun size => any fun genre => any fun origin => any fun origin => any fun chosen =>
        send _ _
  | zoom =>
      exact any fun origin => any fun size => any fun level => any fun start => any fun chosen =>
        send _ _
  | custom =>
      exact any fun size => any fun core => any fun start => any fun count => any fun skeleton =>
        send _ _
  | termsubgraph =>
      exact any fun term => any fun size => any fun results => any fun g =>
        oneMessage_sendGraph P _ none
  | _ => rw [route] at asked; simp [graphRoutes] at asked

/-- What comes back from a graph route is a graph or one of the two unsuccessful outcomes. -/
theorem ofServer_cases (job : Job) (asked : job.request.route ∈ graphRoutes) (db : Store S) :
    (∃ g, Reply.ofServer (alone P job db) = .graph g) ∨
      ∃ outcome : Unsuccessful, Reply.ofServer (alone P job db) = outcome.reply := by
  cases ran : alone P job db with
  | error e => exact Or.inr ⟨.failed, rfl⟩
  | ok response =>
      rcases run_ensures (machine S) (oneMessage_serve P job.fuel job.request asked) ran with
        ⟨g, rfl⟩ | rfl
      · exact Or.inl ⟨g, rfl⟩
      · exact Or.inr ⟨.noPath, rfl⟩

/-- `/path` has no path for equal ends, and none to an artist more than eight steps away. -/
theorem ofServer_noPath (db : MusicDb S) (job : Job) (route : job.request.route = .path)
    {i j : String} (source : job.request.args "source" = some i)
    (destination : job.request.args "destination" = some j)
    (none : i = j ∨ ¬ ∃ d ≤ 8, AtDist db.Adj i d j) :
    Reply.ofServer (alone P job db.store) = Unsuccessful.noPath.reply := by
  have nodup : ∀ a, ((db.neighbours a).members).Nodup := fun a => (db.neighbours a).nodup
  have searched : ∃ paths, Yields db.store (findPaths P i j) paths ∧ paths.getD [] = [] := by
    rcases none with rfl | far
    · exact ⟨_, yields_findPaths_self P i, rfl⟩
    · exact ⟨_, yields_findPaths_none P db.neighbours_kind nodup far, rfl⟩
  obtain ⟨paths, found, empty⟩ := searched
  obtain ⟨store, ran, _⟩ := found db.store (AgreeOff.refl _ _) job.tape
  have response : alone P job db.store = .ok (.error "No path found.") := by
    simp [alone, serve, route, pathFinder, arg, source, destination, Handler.ofOption, run_bind,
      ran, empty]
  rw [response]
  rfl

end Server

end Phonograph.Client.FailedRequests
