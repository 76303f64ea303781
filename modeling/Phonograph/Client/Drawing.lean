import Phonograph.Client.View
import Phonograph.Lib.Marks

/-! # What is drawn

`start_Vis` adds a group for each node of a reply and leaves the groups of the last
graph to transitions that slide or fade them and then take them out.  It looks old
groups up by their artist, and the join binds the new nodes to whatever groups still
have the class of a node.  `drawGraph_right_iff` tells when the map then shows the
graph. -/

set_option autoImplicit false

namespace Phonograph.Client.Drawing

open Phonograph.Lib Phonograph.Server.Igrapher

inductive Cls where
  | node
  | oldNode
  | toGo
  deriving DecidableEq

/-- A group of the map: the node that its id, its circle and its labels were made of, the
node that is bound to it, and the place that it lies at or moves to. -/
structure NodeGroup (F : Type) where
  drawn : Node F
  datum : Node F
  cls : Cls
  place : F × F

structure Line where
  edge : Edge
  old : Bool

structure Canvas (F : Type) where
  groups : List (NodeGroup F)
  lines : List Line

def Canvas.empty {F : Type} : Canvas F := ⟨[], []⟩

section Model
variable {F : Type}

/-- `d3.select('#a' + id)` reaches the first group with the id. -/
def NodeGroup.id (group : NodeGroup F) : String := group.drawn.id

def NodeGroup.isNode (group : NodeGroup F) : Bool := decide (group.cls = .node)

def leave (_ : String) (group : NodeGroup F) : NodeGroup F := { group with cls := .toGo }

abbrev Scale (F : Type) := F × F → F × F

variable (scale : Scale F)

def stay (graph : D3Graph F) (id : String) (group : NodeGroup F) : NodeGroup F :=
  { group with
    cls := .oldNode
    place := ((graph.nodes[(graph.nodes.map Node.id).idxOf id]?).map fun n => scale n.pos).getD
      group.place }

/-- The join of `.node` with the nodes of the graph, by position: the groups with the
nodes bound to them, and the nodes that enter. -/
def bindData : List (Node F) → List (NodeGroup F) → List (NodeGroup F) × List (Node F)
  | nodes, [] => ([], nodes)
  | nodes, group :: groups =>
      if group.cls = .node then
        let rest := bindData nodes.tail groups
        ({ group with datum := nodes.headD group.datum } :: rest.1, rest.2)
      else
        let rest := bindData nodes groups
        (group :: rest.1, rest.2)

def enter (n : Node F) : NodeGroup F := ⟨n, n, .node, scale n.pos⟩

/-- `start_Vis` on the map, where `oldIds` are those of the last graph and `graph` is as its
layout has left it. -/
def drawGraph (oldIds : List String) (graph : D3Graph F) (canvas : Canvas F) : Canvas F :=
  let newIds := graph.nodes.map Node.id
  let toStay := oldIds.filter (· ∈ newIds)
  let toGo := oldIds.filter (· ∉ newIds)
  let groups := changeAll NodeGroup.id leave toGo canvas.groups
  let groups := changeAll NodeGroup.id (stay scale graph) toStay groups
  let joined := bindData graph.nodes groups
  ⟨joined.1 ++ joined.2.map (enter scale),
    canvas.lines.map (fun line => { line with old := true }) ++ graph.links.map fun e => ⟨e, false⟩⟩

def removeGroup (canvas : Canvas F) (index : ℕ) : Canvas F :=
  match canvas.groups[index]? with
  | none => canvas
  | some group => if group.cls = .node then canvas else { canvas with groups := canvas.groups.eraseIdx index }

def removeLine (canvas : Canvas F) (index : ℕ) : Canvas F :=
  match canvas.lines[index]? with
  | none => canvas
  | some line => if line.old then { canvas with lines := canvas.lines.eraseIdx index } else canvas

end Model

/-! ## The join -/

section Join
variable {F : Type}

def nodesOf (groups : List (NodeGroup F)) : List (NodeGroup F) := groups.filter NodeGroup.isNode

theorem nodesOf_cons_node {group : NodeGroup F} (node : group.cls = .node)
    (groups : List (NodeGroup F)) :
    nodesOf (group :: groups) = group :: nodesOf groups :=
  List.filter_cons_of_pos (decide_eq_true node)

theorem nodesOf_cons_old {group : NodeGroup F} (old : group.cls ≠ .node)
    (groups : List (NodeGroup F)) :
    nodesOf (group :: groups) = nodesOf groups :=
  List.filter_cons_of_neg (by simpa [NodeGroup.isNode] using old)

theorem nodesOf_append (groups groups' : List (NodeGroup F)) :
    nodesOf (groups ++ groups') = nodesOf groups ++ nodesOf groups' := List.filter_append ..

theorem bindData_node {group : NodeGroup F} (node : group.cls = .node) (nodes : List (Node F))
    (groups : List (NodeGroup F)) : bindData nodes (group :: groups) =
      ({ group with datum := nodes.headD group.datum } :: (bindData nodes.tail groups).1,
        (bindData nodes.tail groups).2) := by
  rw [bindData, if_pos node]

theorem bindData_old {group : NodeGroup F} (old : group.cls ≠ .node) (nodes : List (Node F))
    (groups : List (NodeGroup F)) : bindData nodes (group :: groups) =
      (group :: (bindData nodes groups).1, (bindData nodes groups).2) := by
  rw [bindData, if_neg old]

theorem bindData_enters (groups : List (NodeGroup F)) : ∀ nodes : List (Node F),
    (bindData nodes groups).2 = nodes.drop (nodesOf groups).length := by
  induction groups with
  | nil => exact fun _ => rfl
  | cons group groups ih =>
      intro nodes
      by_cases node : group.cls = .node
      · rw [bindData_node node, nodesOf_cons_node node, ih, List.length_cons, Nat.add_comm,
          ← List.drop_drop, List.drop_one]
      · rw [bindData_old node, nodesOf_cons_old node, ih]

theorem bindData_drawn (groups : List (NodeGroup F)) : ∀ nodes : List (Node F),
    (nodesOf (bindData nodes groups).1).map (fun g => (g.drawn, g.place)) =
      (nodesOf groups).map fun g => (g.drawn, g.place) := by
  induction groups with
  | nil => exact fun _ => rfl
  | cons group groups ih =>
      intro nodes
      by_cases node : group.cls = .node
      · have bound : ({ group with datum := nodes.headD group.datum } : NodeGroup F).cls = .node :=
          node
        rw [bindData_node node, nodesOf_cons_node node, nodesOf_cons_node bound, List.map_cons,
          List.map_cons, ih]
      · rw [bindData_old node, nodesOf_cons_old node, nodesOf_cons_old node, ih]

theorem bindData_datum (groups : List (NodeGroup F)) : ∀ nodes : List (Node F),
    (nodesOf groups).length ≤ nodes.length →
    (nodesOf (bindData nodes groups).1).map NodeGroup.datum = nodes.take (nodesOf groups).length := by
  induction groups with
  | nil => simp [bindData, nodesOf]
  | cons group groups ih =>
      intro nodes short
      by_cases node : group.cls = .node
      · have bound : ({ group with datum := nodes.headD group.datum } : NodeGroup F).cls = .node :=
          node
        rw [nodesOf_cons_node node, List.length_cons] at short
        rw [bindData_node node, nodesOf_cons_node node, nodesOf_cons_node bound, List.length_cons]
        cases nodes with
        | nil => simp at short
        | cons n nodes =>
            rw [List.map_cons, List.tail_cons, ih nodes (Nat.le_of_succ_le_succ short),
              List.take_succ_cons, List.headD_cons]
      · rw [nodesOf_cons_old node] at short
        rw [bindData_old node, nodesOf_cons_old node, nodesOf_cons_old node, ih nodes short]

end Join

/-! ## What the map shows -/

section Right
variable {F : Type} {scale : Scale F} {oldIds : List String} {graph : D3Graph F} {canvas : Canvas F}

/-- The groups of the class of a node are those of the graph, each drawn for the node it is
bound to and at its place; and the links are those of the graph. -/
structure Right (scale : Scale F) (graph : D3Graph F) (canvas : Canvas F) : Prop where
  groups : (nodesOf canvas.groups).map (fun g => (g.drawn, g.datum, g.place)) =
    graph.nodes.map fun n => (n, n, scale n.pos)
  lines : (canvas.lines.filter fun line => !line.old).map Line.edge = graph.links

/-- The groups that have the class of a node and that no lookup of an old artist reaches. -/
def leftOver (oldIds : List String) (canvas : Canvas F) : List (NodeGroup F) :=
  nodesOf (unreached NodeGroup.id oldIds canvas.groups)

theorem nodesOf_marked (nodup : oldIds.Nodup) :
    nodesOf (changeAll NodeGroup.id (stay scale graph) (oldIds.filter (· ∈ graph.nodes.map Node.id))
      (changeAll NodeGroup.id leave (oldIds.filter (· ∉ graph.nodes.map Node.id)) canvas.groups)) =
      leftOver oldIds canvas := by
  set newIds := graph.nodes.map Node.id
  set change : String → NodeGroup F → NodeGroup F := fun id => if id ∈ newIds then stay scale graph id else leave id
  have staying : ∀ id ∈ oldIds.filter (· ∈ newIds), stay scale graph id = change id := by
    intro id inside
    exact (if_pos (of_decide_eq_true (List.mem_filter.mp inside).2)).symm
  have going : ∀ id ∈ oldIds.filter (· ∉ newIds), leave id = change id := by
    intro id inside
    exact (if_neg (of_decide_eq_true (List.mem_filter.mp inside).2)).symm
  have perm : (oldIds.filter (· ∉ newIds) ++ oldIds.filter (· ∈ newIds)).Perm oldIds := by
    have parts := List.filter_append_perm (fun id => decide (id ∉ newIds)) oldIds
    simpa using parts
  have keeps : ∀ id (group : NodeGroup F), (change id group).id = group.id := by
    intro id group
    simp only [change]
    split_ifs <;> rfl
  have leaves : ∀ id (group : NodeGroup F), (change id group).isNode = false := by
    intro id group
    simp only [change]
    split_ifs <;> rfl
  rw [changeAll_congr staying, changeAll_congr going, ← changeAll_append, nodesOf, leftOver,
    nodesOf,
    filter_changeAll keeps leaves _ _ (perm.nodup_iff.mpr nodup), unreached_congr _ _ _ perm]

theorem lines_drawGraph (scale : Scale F) (oldIds : List String) (graph : D3Graph F)
    (canvas : Canvas F) :
    ((drawGraph scale oldIds graph canvas).lines.filter fun line => !line.old).map Line.edge =
      graph.links := by
  simp [drawGraph, List.filter_append, List.filter_map, Function.comp_def]

theorem nodesOf_entered (scale : Scale F) (nodes : List (Node F)) :
    nodesOf (nodes.map (enter scale)) = nodes.map (enter scale) := by
  rw [nodesOf, List.filter_eq_self]
  intro group inside
  obtain ⟨n, -, rfl⟩ := List.mem_map.mp inside
  rfl

/-- The nodes of the map after a reply: the groups left over, with the first nodes bound
to them, and new groups for the others. -/
theorem nodesOf_drawGraph (nodup : oldIds.Nodup) : ∃ bound : List (NodeGroup F),
    nodesOf (drawGraph scale oldIds graph canvas).groups =
      bound ++ (graph.nodes.drop (leftOver oldIds canvas).length).map (enter scale) ∧
    bound.map (fun g => (g.drawn, g.place)) =
      (leftOver oldIds canvas).map (fun g => (g.drawn, g.place)) ∧
    ((leftOver oldIds canvas).length ≤ graph.nodes.length →
      bound.map NodeGroup.datum = graph.nodes.take (leftOver oldIds canvas).length) := by
  set marked : List (NodeGroup F) :=
    changeAll NodeGroup.id (stay scale graph) (oldIds.filter (· ∈ graph.nodes.map Node.id))
      (changeAll NodeGroup.id leave (oldIds.filter (· ∉ graph.nodes.map Node.id)) canvas.groups) with markedDef
  have left : nodesOf marked = leftOver oldIds canvas := nodesOf_marked nodup
  refine ⟨nodesOf (bindData graph.nodes marked).1, ?_, ?_, ?_⟩
  · have enters := bindData_enters marked graph.nodes
    rw [left] at enters
    rw [← nodesOf_entered, ← enters, ← nodesOf_append]
    rfl
  · rw [bindData_drawn, left]
  · intro short
    rw [← left] at short ⊢
    exact bindData_datum marked graph.nodes short

/-- A reply is drawn right if and only if the groups left over from before are drawn as
its first nodes are. -/
theorem drawGraph_right_iff (nodup : oldIds.Nodup) :
    Right scale graph (drawGraph scale oldIds graph canvas) ↔
      (leftOver oldIds canvas).map (fun g => (g.drawn, g.place)) <+:
        graph.nodes.map fun n => (n, scale n.pos) := by
  set k : ℕ := (leftOver oldIds canvas).length with kDef
  obtain ⟨bound, groups, drawn, datum⟩ : ∃ bound : List (NodeGroup F),
      nodesOf (drawGraph scale oldIds graph canvas).groups =
        bound ++ (graph.nodes.drop k).map (enter scale) ∧
      bound.map (fun g => (g.drawn, g.place)) =
        (leftOver oldIds canvas).map (fun g => (g.drawn, g.place)) ∧
      (k ≤ graph.nodes.length → bound.map NodeGroup.datum = graph.nodes.take k) :=
        nodesOf_drawGraph nodup
  have count : bound.length = k := by simpa using congrArg List.length drawn
  rw [← drawn]
  constructor
  · intro right
    have shown := congrArg (List.map fun entry : Node F × Node F × F × F => (entry.1, entry.2.2))
      right.groups
    simp only [groups, List.map_append, List.map_map] at shown
    exact ⟨_, shown⟩
  · intro start
    have short : k ≤ graph.nodes.length := by simpa [count] using start.length_le
    have first := List.prefix_iff_eq_take.mp start
    rw [List.length_map, count, ← List.map_take] at first
    have whole : bound.map (fun g => (g.drawn, g.datum, g.place)) =
        List.zipWith (fun pair d => (pair.1, d, pair.2)) (bound.map fun g => (g.drawn, g.place))
          (bound.map NodeGroup.datum) := by
      rw [List.zipWith_map, List.zipWith_self]
    refine ⟨?_, lines_drawGraph scale oldIds graph canvas⟩
    calc (nodesOf (drawGraph scale oldIds graph canvas).groups).map (fun g => (g.drawn, g.datum, g.place))
        = bound.map (fun g => (g.drawn, g.datum, g.place)) ++
            (graph.nodes.drop k).map fun n => (n, n, scale n.pos) := by
          rw [groups, List.map_append, List.map_map]
          rfl
      _ = (graph.nodes.take k).map (fun n => (n, n, scale n.pos)) ++
            (graph.nodes.drop k).map fun n => (n, n, scale n.pos) := by
          rw [whole, first, datum short, List.zipWith_map_left, List.zipWith_self]
      _ = graph.nodes.map fun n => (n, n, scale n.pos) := by
          rw [← List.map_append, List.take_append_drop]

/-- Nothing is left over from a map that shows the last graph, unless a group with the
same artist stands before one of its nodes. -/
theorem leftOver_eq_nil_iff {scale' : Scale F} {last : D3Graph F} (right : Right scale' last canvas)
    (nodup : (last.nodes.map Node.id).Nodup) :
    leftOver (last.nodes.map Node.id) canvas = [] ↔
      canvas.groups.Pairwise fun before group => group.cls = .node → before.id ≠ group.id := by
  have known : ∀ group ∈ canvas.groups, group.isNode = true →
      group.id ∈ last.nodes.map Node.id := by
    intro group inside node
    have drawn : group.drawn ∈ (nodesOf canvas.groups).map NodeGroup.drawn :=
      List.mem_map_of_mem (List.mem_filter.mpr ⟨inside, node⟩)
    have same := congrArg (List.map fun entry : Node F × Node F × F × F => entry.1) right.groups
    rw [List.map_map, List.map_map] at same
    have listed : group.drawn ∈ last.nodes.map fun n => n := same ▸ drawn
    rw [List.map_id'] at listed
    exact List.mem_map_of_mem listed
  have parts := filter_unreached_eq_nil_iff canvas.groups _ nodup known
  simpa [leftOver, nodesOf, NodeGroup.isNode] using parts

theorem leftOver_of_quiet {scale' : Scale F} {last : D3Graph F} (right : Right scale' last canvas)
    (nodup : (last.nodes.map Node.id).Nodup) (quiet : ∀ group ∈ canvas.groups, group.cls = .node) :
    leftOver (last.nodes.map Node.id) canvas = [] := by
  rw [leftOver_eq_nil_iff right nodup]
  have all : nodesOf canvas.groups = canvas.groups :=
    List.filter_eq_self.mpr fun group inside => decide_eq_true (quiet group inside)
  have ids : canvas.groups.map NodeGroup.id = last.nodes.map Node.id := by
    have same := congrArg (List.map fun entry : Node F × Node F × F × F => entry.1.id) right.groups
    rw [all, List.map_map, List.map_map] at same
    exact same
  have apart : (canvas.groups.map NodeGroup.id).Nodup := ids ▸ nodup
  refine (List.pairwise_map.mp apart).imp ?_
  intro before group ne _
  exact ne

theorem right_removeGroup (right : Right scale graph canvas) (index : ℕ) :
    Right scale graph (removeGroup canvas index) := by
  rw [removeGroup]
  cases found : canvas.groups[index]? with
  | none => exact right
  | some group =>
      by_cases node : group.cls = .node
      · simp only [node, if_true]
        exact right
      · simp only [node, if_false]
        have same : nodesOf (canvas.groups.eraseIdx index) = nodesOf canvas.groups :=
          filter_eraseIdx canvas.groups index found (decide_eq_false node)
        exact ⟨by rw [same]; exact right.groups, right.lines⟩

theorem right_removeLine (right : Right scale graph canvas) (index : ℕ) :
    Right scale graph (removeLine canvas index) := by
  rw [removeLine]
  cases found : canvas.lines[index]? with
  | none => exact right
  | some line =>
      by_cases old : line.old = true
      · simp only [old, if_true]
        have same : (canvas.lines.eraseIdx index).filter (fun line => !line.old) =
            canvas.lines.filter fun line => !line.old :=
          filter_eraseIdx canvas.lines index found (by simp [old])
        exact ⟨right.groups, by rw [same]; exact right.lines⟩
      · simp only [old]
        exact right

end Right

end Phonograph.Client.Drawing
