import Phonograph.Lib.Rely
import Phonograph.Server.Isolation

/-! # What a race leaves intact

Requests that are served at once can overwrite each other's intersections, so a
graph may be sent with wrong links.  Its artists are chosen from records that no
request writes: whatever the order of the commands, the nodes of a graph that is
sent are those the request chooses alone, with their stored records, and every link
joins two of them (`interleaved_nodes`). -/

set_option autoImplicit false

namespace Phonograph.Server.Races

open Phonograph.Lib Phonograph.Server.Redis Phonograph.Server.Python
open Phonograph.Server.Database Phonograph.Server.Paths Phonograph.Server.Igrapher
open Phonograph.Server.Routes Phonograph.Server.Footprints Phonograph.Server.Isolation

variable {F S : Type} [Score S]

/-! ## Choosing the artists -/

section
variable (P : Platform F) (fuel : ℕ)

/-- The part of a graph route before `igrapher`: the artists to send and the origin,
or nothing if no path is found. -/
def choose (request : Request) : Handler (Option (List String × Option String)) :=
  match request.route with
  | .path => do
      let i ← arg request.args "source"
      let j ← arg request.args "destination"
      let paths ← findPaths P i j
      if (paths.getD []) ≠ [] then do
        let path ← Handler.choice ((← findPaths P i j).getD [])
        pure (some (path, none))
      else pure none
  | .neighbourhood => do
      let size ← intArg request.args "size"
      let genre ← arg request.args "genre"
      let origin ← arg request.args "origin"
      let genre : Option String := if genre = "null" then none else some genre
      let origin ← originFor P fuel origin genre
      let chosen ← neighbourhoodLoop P genre size fuel (AList.singleton origin 1) [origin] [origin]
      pure (some (P.setOrder chosen, some origin))
  | .zoom => do
      let origin ← arg request.args "origin"
      let size ← intArg request.args "size"
      let level ← intArg request.args "level"
      let start ← zoomStart P origin level
      let chosen ← zoomLoop P origin size level fuel start
      pure (some (P.setOrder chosen, some origin))
  | .custom => do
      let size ← intArg request.args "size"
      let core := split ',' (← arg request.args "core")
      let start ← customStart P core
      let pathsDict := start.1
      let skeleton := listSet P start.2
      let distance (pair : Pair) : ℕ := (((pathsDict.lookup pair).getD []).headD []).length
      let maxCount ← Handler.ofOption .valueError
        (pathsDict.keys.map fun pair => ((pathsDict.lookup pair).getD []).length).max?
      let sortedPairs := (P.pairOrder pathsDict.keys).insertionSort fun a b => distance a ≤ distance b
      let skeleton ← customLoop P pathsDict size maxCount fuel 1 sortedPairs skeleton
      pure (some (skeleton, none))
  | _ => pure none

/-- The part of a graph route from `igrapher` on. -/
def send : Option (List String × Option String) → Handler (Response F)
  | some (vs, origin) => do
      let g ← igrapher P vs
      return .graph (← d3Dictify P g origin)
  | none => pure (.error "No path found.")

def graphRoutes : List Route := [.path, .neighbourhood, .zoom, .custom]

theorem serve_eq {request : Request} (graph : request.route ∈ graphRoutes) :
    serve P fuel request = choose P fuel request >>= send P := by
  simp only [graphRoutes, List.mem_cons, List.not_mem_nil, or_false] at graph
  rcases graph with route | route | route | route
  · simp only [serve, choose, route, pathFinder, bind_assoc]
    congr 1
    funext i
    congr 1
    funext j
    congr 1
    funext paths
    split_ifs
    · simp only [bind_assoc]
      rfl
    · rfl
  · simp only [serve, choose, route, neighbourhood, bind_assoc]
    rfl
  · simp only [serve, choose, route, zoom, bind_assoc]
    rfl
  · simp only [serve, choose, route, customSubgraph, bind_assoc]
    rfl

theorem tame_choose (request : Request) : Tame (choose P fuel request) := by
  unfold choose
  split
  · refine (tame_arg _ _).bind fun i => (tame_arg _ _).bind fun j => ?_
    refine (tame_findPaths P i j).bind fun paths => tame_ite ?_ trivial
    exact (tame_findPaths P i j).bind fun _ => (tame_choice _).bind fun _ => trivial
  · refine (tame_intArg _ _).bind fun size => (tame_arg _ _).bind fun genre =>
      (tame_arg _ _).bind fun origin => ?_
    refine (tame_originFor P fuel _ _).bind fun origin => ?_
    exact (tame_neighbourhoodLoop P _ _ _ _ _ _).bind fun _ => trivial
  · refine (tame_arg _ _).bind fun origin => (tame_intArg _ _).bind fun size =>
      (tame_intArg _ _).bind fun level => ?_
    refine (tame_zoomStart P _ _).bind fun start => ?_
    exact (tame_zoomLoop P _ _ _ _ _).bind fun _ => trivial
  · refine (tame_intArg _ _).bind fun size => (tame_arg _ _).bind fun core => ?_
    refine (tame_customStart P _).bind fun start => (tame_ofOption _ _).bind fun _ => ?_
    exact (tame_customLoop P _ _ _ _ _ _ _).bind fun _ => trivial
  · trivial

end

/-! ## Links -/

/-- Every link joins two places of `vs`, each pair of places at most once, and has a
positive weight. -/
structure LinksWithin (vs : List String) (links : List Edge) : Prop where
  ends : (links.map fun e => (e.source, e.target)).Sublist
    ((pairs vs).map fun pair => (vs.idxOf pair.1, vs.idxOf pair.2))
  weights : ∀ e ∈ links, 0 < e.weight

structure Lists (seen : List (String × String)) (acc : Collected) : Prop where
  edges : acc.edges.Sublist seen
  weights : acc.weights.length = acc.edges.length
  tracks : acc.tracks.length = acc.edges.length
  positive : ∀ weight ∈ acc.weights, 0 < weight

theorem lists_collectPair (P : Platform F) {seen : List (String × String)} {acc : Collected}
    (lists : Lists seen acc) (pair : String × String) :
    (collectPair P acc pair).Ensures (Lists (seen ++ [pair])) := by
  intro _ edgetracks
  change (addLink P acc pair edgetracks).Ensures _
  cases edgetracks with
  | nil =>
      exact ⟨lists.edges.trans (List.sublist_append_left seen [pair]), lists.weights, lists.tracks,
        lists.positive⟩
  | cons track others =>
      refine (Script.ensures_true _).bind fun info _ => (Script.ensures_true _).bind fun name _ => ?_
      refine (Script.ensures_true _).bind fun popularity _ =>
        (Script.ensures_true _).bind fun members _ => ?_
      refine (Script.ensures_true _).bind fun names _ => ?_
      constructor
      · exact lists.edges.append (List.Sublist.refl [pair])
      · simp [lists.weights]
      · simp [lists.tracks]
      · intro weight inside
        rcases List.mem_append.mp inside with before | last
        · exact lists.positive weight before
        · rw [List.mem_singleton.mp last]
          exact Nat.succ_pos _

theorem igrapher_ensures (P : Platform F) (vs : List String) :
    (igrapher P vs).Ensures fun g => g.vs = vs ∧ LinksWithin vs g.es := by
  have loop := Script.Ensures.foldlM (Lists) (fun seen acc pair lists => lists_collectPair P lists pair)
    (pairs vs) [] ⟨[], [], [], ∅⟩ ⟨List.Sublist.refl [], rfl, rfl, by simp⟩
  refine loop.bind fun acc lists => ⟨rfl, ?_, ?_⟩
  · have heads : (acc.edges.zip (acc.weights.zip acc.tracks)).map Prod.fst = acc.edges := by
      apply List.map_fst_zip
      simp [lists.weights, lists.tracks]
    have ends : ((assemble vs acc).es.map fun e => (e.source, e.target)) =
        acc.edges.map fun pair => (vs.idxOf pair.1, vs.idxOf pair.2) := by
      conv_rhs => rw [← heads]
      simp [assemble, List.map_map, Function.comp_def]
    rw [ends]
    exact lists.edges.map _
  · intro e inside
    simp only [assemble, List.mem_map] at inside
    obtain ⟨entry, among, rfl⟩ := inside
    apply lists.positive
    exact (List.of_mem_zip (List.of_mem_zip among).2).1

/-! ## Nodes -/

def Recorded (db : Store S) (node : Node F) : Prop :=
  ∃ info, hgetallOf (db (artistInfoKey node.id)) = .ok info ∧ info "name" = some node.name ∧
    (info "popularity").bind int = some (node.popularity - 1) ∧ info "genre" = node.genre

theorem hgetallOf_of_exec {key : String} {store after : Store S} {info : String → Option String}
    (answered : exec (.hgetall key) store = .ok (info, after)) :
    hgetallOf (store key) = .ok info := by
  cases found : hgetallOf (store key) with
  | error error =>
      simp only [exec, found] at answered
      cases answered
  | ok fields =>
      simp only [exec, found] at answered
      cases answered
      rfl

theorem always_d3Node (db : Store S) (artist : String) (pos : F × F) (tape : Tape) :
    Always (machine S) scratch db (fun node => node.id = artist ∧ Recorded db node)
      (d3Node artist pos) tape := by
  rintro info ⟨store, after, agree, answered⟩
  have stored : hgetallOf (db (artistInfoKey artist)) = .ok info := by
    rw [← agree _ (artistInfoKey_not_scratch artist)]
    exact hgetallOf_of_exec answered
  change Always (machine S) scratch db _ (do
    let name ← Handler.ofOption .keyError (info "name")
    let popularity ← Handler.ofOption .keyError (info "popularity")
    let popularity ← Handler.ofOption .valueError (int popularity)
    return (⟨artist, name, popularity + 1, info "genre", pos⟩ : Node F)) tape
  cases named : info "name" with
  | none => trivial
  | some name =>
      cases ranked : info "popularity" with
      | none => trivial
      | some text =>
          cases number : int text with
          | none =>
              simp only [Handler.ofOption, Script.done_bind, number]
              trivial
          | some popularity =>
              simp only [Handler.ofOption, Script.done_bind, number]
              refine ⟨rfl, info, stored, named, ?_, rfl⟩
              rw [ranked, Option.bind_some, number]
              simp

theorem always_send (P : Platform F) (db : Store S) (vs : List String) (origin : Option String)
    (tape : Tape) :
    Always (machine S) scratch db (fun response => ∃ g, response = .graph g ∧
      g.nodes.map Node.id = vs ∧ g.origin = origin ∧ (∀ node ∈ g.nodes, Recorded db node) ∧
      LinksWithin vs g.links) (send P (some (vs, origin))) tape := by
  apply always_bind (always_of_ensures (igrapher_ensures P vs) tape)
  rintro graph ⟨rfl, within⟩ tape
  have sent : Always (machine S) scratch db (fun reply : D3Graph F =>
      reply.nodes.map Node.id = graph.vs ∧ reply.origin = origin ∧
      (∀ node ∈ reply.nodes, Recorded db node) ∧ reply.links = graph.es)
      (d3Dictify P graph origin) tape := by
    unfold d3Dictify
    refine always_bind (always_mapM (fun v tape => always_d3Node db v.1 _ tape) graph.vs.zipIdx _) ?_
    intro nodes recorded tape
    have listed : nodes.map Node.id = graph.vs.zipIdx.map Prod.fst ∧
        ∀ node ∈ nodes, Recorded db node := by
      generalize graph.vs.zipIdx = vs at recorded
      induction recorded with
      | nil => simp
      | cons first _ ih =>
          rw [List.map_cons, List.map_cons, first.1, ih.1]
          exact ⟨rfl, List.forall_mem_cons.mpr ⟨first.2, ih.2⟩⟩
    refine ⟨?_, rfl, listed.2, rfl⟩
    rw [listed.1, List.zipIdx_map_fst]
  apply always_bind sent
  rintro reply ⟨ids, same, records, links⟩ tape
  exact ⟨reply, rfl, ids, same, records, links ▸ within⟩

/-! ## Any schedule -/

def Fits (P : Platform F) (db : Store S) (job : Job) (response : Response F) : Prop :=
  job.request.route ∈ graphRoutes → ∀ g, response = .graph g → ∃ vs,
    (run (machine S) (choose P job.fuel job.request) job.tape db).1 = .ok (some (vs, g.origin)) ∧
    g.nodes.map Node.id = vs ∧ (∀ node ∈ g.nodes, Recorded db node) ∧ LinksWithin vs g.links

theorem always_fits (P : Platform F) (db : Store S) (job : Job) :
    Always (machine S) scratch db (Fits P db job) (serve P job.fuel job.request) job.tape := by
  by_cases graph : job.request.route ∈ graphRoutes
  · rw [serve_eq P job.fuel graph]
    apply always_bind_reads (tame_choose P job.fuel job.request)
    intro choice tape' chosen
    cases choice with
    | none =>
        rintro _ g same
        cases same
    | some entry =>
        obtain ⟨vs, origin⟩ := entry
        have sent := always_send P db vs origin tape'
        rw [← bind_pure (send P (some (vs, origin)))]
        apply always_bind sent
        rintro response ⟨g, rfl, ids, rfl, records, within⟩ tape _ g' same
        cases same
        exact ⟨vs, by rw [chosen], ids, records, within⟩
  · apply always_of_ensures
    rw [← bind_pure (serve P job.fuel job.request)]
    exact (Script.ensures_true _).bind fun _ _ absent => absurd absent graph

variable {ι : Type} [DecidableEq ι]

/-- Whatever the order in which the commands of any requests are executed, nothing but
scratch keys ever changes, and a graph that is sent has the nodes and the origin that
its request chooses alone, the stored records of its artists, and at most one link for
each pair of its nodes. -/
theorem interleaved_nodes (P : Platform F) (jobs : ι → Job) (db : Store S) (schedule : List ι) :
    AgreeOff scratch ((accepted P jobs db).interleave (machine S) schedule).store db ∧
    ∀ i g, (jobs i).request.route ∈ graphRoutes →
      interleaved P jobs db schedule i = some (.ok (.graph g)) → ∃ vs,
        (run (machine S) (choose P (jobs i).fuel (jobs i).request) (jobs i).tape db).1 =
          .ok (some (vs, g.origin)) ∧
        g.nodes.map Node.id = vs ∧ (∀ node ∈ g.nodes, Recorded db node) ∧
        LinksWithin vs g.links := by
  have writes : ∀ i, WritesOnly (machine S) scratch ((accepted P jobs db).threads i).script := by
    intro i
    exact (serve_writes P (jobs i).fuel (jobs i).request).mono fun command own =>
      own.trans (scratchOf_subset _)
  have fits : ∀ i, Always (machine S) scratch db (Fits P db (jobs i))
      ((accepted P jobs db).threads i).script ((accepted P jobs db).threads i).tape :=
    fun i => always_fits P db (jobs i)
  obtain ⟨kept, ended⟩ := interleave_always schedule (accepted P jobs db)
    (AgreeOff.refl scratch db) writes fits
  exact ⟨kept, fun i g graph sent => ended i _ sent graph g rfl⟩

def pathJob (destination : String) : Job where
  request := ⟨.path, fun name =>
    if name = "source" then some "a" else if name = "destination" then some destination else none⟩
  fuel := 0
  tape := fun _ => 0

def twoPaths (first : Bool) : Job := pathJob (if first then "c" else "b")

/-- The second request is served between two commands of the first. -/
def overtaken : List Bool :=
  List.replicate 12 true ++ List.replicate 12 false ++ List.replicate 20 true

def crossedReply : D3Graph ℤ where
  nodes := [⟨"c", "C", 8, none, (0, 0)⟩, ⟨"b", "B", 61, none, (0, 0)⟩, ⟨"a", "A", 51, none, (0, 0)⟩]
  links := [⟨0, 1, 1, ⟨"u", "U", "30", [some "B", some "C"]⟩⟩,
    ⟨0, 2, 1, ⟨"t", "T", "40", [some "A", some "B"]⟩⟩,
    ⟨1, 2, 1, ⟨"t", "T", "40", [some "A", some "B"]⟩⟩]
  origin := none

theorem interleaved_nodes_overtaken :
    interleaved Platform.plain twoPaths rowDb.store overtaken true =
      some (.ok (.graph crossedReply)) ∧
    (run (machine ℤ) (choose Platform.plain 0 (twoPaths true).request) (fun _ => 0)
      rowDb.store).1 = .ok (some (["c", "b", "a"], none)) ∧
    LinksWithin ["c", "b", "a"] crossedReply.links := by
  have sent : interleaved Platform.plain twoPaths rowDb.store overtaken true =
      some (.ok (.graph crossedReply)) := by decide +kernel
  obtain ⟨vs, chosen, rfl, -, within⟩ := (interleaved_nodes Platform.plain twoPaths rowDb.store
    overtaken).2 true crossedReply (by decide) sent
  exact ⟨sent, chosen, within⟩

end Phonograph.Server.Races
